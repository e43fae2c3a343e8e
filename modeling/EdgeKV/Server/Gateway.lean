import EdgeKV.Store.Store
import EdgeKV.Text
import EdgeKV.Url

/-!
The HTTP gateway of a node, from the decoded request on: the commands that writes become, the
paths they enqueue for invalidation, and the answers of the cache path with the headers that a
cache goes by. An absent header or query parameter is the empty text.
-/
namespace EdgeKV.Server

open Url (utf8)

structure Config where
  nodeId : String
  /-- The base URL of a node, empty for an unknown one. -/
  peerHTTP : String → String
  cacheableNamespaces : List String
  defaultTTLSeconds : UInt32 := 0
  maxTTLSeconds : UInt32 := 0
  /-- Whether there is a queue for invalidations. -/
  invalidations : Bool
  shardFor : String → Nat

/-- A `Server`: its limits on the TTL are set. -/
structure Gateway extends Config where
  defaultTTL_ne : defaultTTLSeconds ≠ 0
  maxTTL_ne : maxTTLSeconds ≠ 0

/-- `New`: limits that are not set get their defaults. -/
def new (cfg : Config) : Gateway where
  toConfig :=
    { cfg with
      defaultTTLSeconds := if cfg.defaultTTLSeconds = 0 then 30 else cfg.defaultTTLSeconds
      maxTTLSeconds := if cfg.maxTTLSeconds = 0 then 300 else cfg.maxTTLSeconds }
  defaultTTL_ne := by
    split
    · decide
    · assumption
  maxTTL_ne := by
    split
    · decide
    · assumption

section Messages

structure ReadResponse where
  key : String
  value : Bytes
  version : UInt64
  updatedUnixMs : Int
  deriving DecidableEq, Repr

inductive Body
  | none
  | wrote (key : String) (version : UInt64) (shard : Nat)
  | entry (response : ReadResponse)
  | versionMismatch (currentVersion : UInt64)
  | notLeader (shard : Nat) (leader leaderURL : String)
  | unavailable (detail : String)
  | error (kind detail : String)
  | text (content : String)
  deriving DecidableEq, Repr

/-- A response with the headers that a cache reads. -/
structure Response where
  status : Nat
  cacheControl : String := ""
  etag : String := ""
  body : Body
  deriving DecidableEq, Repr

/-- The header as it is sent if the response does not replace it. -/
def Response.withCacheControl (text : String) (r : Response) : Response :=
  if r.cacheControl = "" then { r with cacheControl := text } else r

def writeError (status : Nat) (kind detail : String) : Response :=
  { status, body := .error kind detail }

/-- An error of a node that cannot serve the request itself. -/
inductive RaftError
  | notLeader (leader : String)
  | other (detail : String)
  deriving DecidableEq, Repr

inductive ReadError
  | notFound
  | raft (err : RaftError)
  deriving DecidableEq, Repr

/-- How forwarding a request to the leader ends. -/
inductive Hop
  | answered (response : Response)
  | invalid (detail : String)
  | failed (detail : String)
  deriving DecidableEq, Repr

/-- The headers by which a request says that it was forwarded, or must not be. -/
structure Routing where
  forwarded : Bool := false
  noForward : Bool := false
  deriving DecidableEq, Repr

structure CachePolicy where
  cacheable : Bool
  ttlSeconds : UInt32
  deriving DecidableEq, Repr

structure PutRequest where
  requestId : String := ""
  value : String
  cachePolicy : Option CachePolicy := none
  deriving DecidableEq, Repr

structure CacheRequest extends Routing where
  key : String
  v : String := ""
  ifNoneMatch : String := ""
  deriving DecidableEq, Repr

end Messages

def firstNonEmpty (vals : List String) : String := (vals.find? (· ≠ "")).getD ""

def etag (version : UInt64) : String := "\"v" ++ toString version.toNat ++ "\""

def toReadResponse (key : String) (e : Store.Entry) : ReadResponse where
  key
  value := e.value
  version := e.version
  updatedUnixMs := e.updatedUnixMs

/-- The path that a write enqueues for invalidation. -/
def cachePath : Bytes := utf8 "/v1/cache/"

namespace Config

variable (cfg : Config)

def namespaceCacheable (key : String) : Bool :=
  cfg.cacheableNamespaces.any fun ns => (utf8 ns).isPrefixOf (utf8 key)

/-- `handleRaftError` with `forward`, of which `hop` is the outcome. -/
def handleRaftError (routing : Routing) (key : String) (hop : Hop) : RaftError → Response
  | .notLeader leader =>
      let leaderURL := cfg.peerHTTP leader
      if leaderURL ≠ "" ∧ leader ≠ cfg.nodeId ∧ ¬ routing.forwarded ∧ ¬ routing.noForward then
        match hop with
        | .answered response => response
        | .invalid detail => writeError 500 "forward_failed" detail
        | .failed detail =>
            { status := 503, body := .unavailable ("forward to leader failed: " ++ detail) }
      else { status := 421, body := .notLeader (cfg.shardFor key) leader leaderURL }
  | .other detail => { status := 503, body := .unavailable detail }

/-- `write`, after `Node.Write` has returned: the response and the path that is enqueued. -/
def write (routing : Routing) (cmd : Command) (hop : Hop) :
    Except RaftError Result → Response × Option Bytes
  | .error err => (cfg.handleRaftError routing cmd.key hop err, none)
  | .ok res =>
      match res.status with
      | .ok =>
          ({ status := 200, body := .wrote cmd.key res.version (cfg.shardFor cmd.key) },
            if cfg.invalidations ∧ cfg.namespaceCacheable cmd.key then
              some (cachePath ++ utf8 cmd.key)
            else none)
      | .versionMismatch => ({ status := 412, body := .versionMismatch res.version }, none)
      | .notFound => (writeError 404 "not_found" "key does not exist", none)

/-- The text of the header for a response that may be cached, if the version is the one asked
for. -/
def cacheControl (v : String) (e : Store.Entry) : Option String :=
  if v = "" then some ("public, max-age=" ++ toString e.ttlSeconds.toNat)
  else if Text.parseUint v.toList = some e.version then
    some "public, max-age=31536000, immutable"
  else none

/-- `handleCacheGet`, where `outcome` is that of the linearizable read. -/
def handleCacheGet (req : CacheRequest) (outcome : Except ReadError Store.Entry) (hop : Hop) :
    Response :=
  Response.withCacheControl "no-store" <|
    if ¬ cfg.namespaceCacheable req.key then
      writeError 403 "not_cacheable" "this key's namespace is never served from the cache path"
    else match outcome with
      | .error .notFound => writeError 404 "not_found" "key does not exist"
      | .error (.raft err) => cfg.handleRaftError req.toRouting req.key hop err
      | .ok e =>
          if ¬ e.cacheable then
            writeError 403 "not_cacheable" "this key was not written with cache_policy.cacheable"
          else match cacheControl req.v e with
            | none => writeError 404 "version_not_found" "only the current version is retained"
            | some cacheControl =>
                if req.ifNoneMatch ≠ "" ∧ req.ifNoneMatch = etag e.version then
                  { status := 304, cacheControl, etag := etag e.version, body := .none }
                else
                  { status := 200, cacheControl, etag := etag e.version
                    body := .entry (toReadResponse req.key e) }

end Config

namespace Gateway

variable (g : Gateway)

/-- The part of `handlePut` that reads the query. -/
def expect (expectedVersion : String) (cmd : Command) : Except Response Command :=
  if expectedVersion = "" then .ok cmd
  else match Text.parseUint expectedVersion.toList with
    | none =>
        .error (writeError 400 "bad_expected_version"
          "expectedVersion must be a non-negative integer")
    | some n => .ok { cmd with hasExpectedVersion := true, expectedVersion := n }

/-- The part of `handlePut` that makes a key cacheable. -/
def allowCaching (policy : Option CachePolicy) (cmd : Command) : Except Response Command :=
  match policy.filter (·.cacheable) with
  | none => .ok cmd
  | some policy =>
      if ¬ g.namespaceCacheable cmd.key then
        .error (writeError 400 "namespace_not_cacheable"
          ("keys outside [" ++ " ".intercalate g.cacheableNamespaces ++ "] can never be cached"))
      else
        .ok
          { cmd with
            cacheable := true
            ttlSeconds :=
              if policy.ttlSeconds = 0 then g.defaultTTLSeconds
              else min (max policy.ttlSeconds 1) g.maxTTLSeconds }

/-- The command of `handlePut`. The ID comes from the body, the header or is a new one. -/
def handlePut (key : String) (req : PutRequest) (expectedVersion headerId newId : String) :
    Except Response Command :=
  (expect expectedVersion
    { op := .put, key, value := utf8 req.value
      requestId := firstNonEmpty [req.requestId, headerId, newId] }).bind
    (g.allowCaching req.cachePolicy)

def handleDelete (key queryId headerId newId : String) : Command :=
  { op := .delete, key, requestId := firstNonEmpty [queryId, headerId, newId] }

end Gateway

end EdgeKV.Server
