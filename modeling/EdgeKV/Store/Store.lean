import EdgeKV.Raft.Types

/-!
The key-value state machine: versioned records with tombstones, and the table of
request IDs whose results are remembered for a window of log indexes. Go maps are
functions to `Option`; a nil byte slice is the empty list. Versions wrap around as
the source's 64-bit integers do, and so does the age of a remembered request.
-/
namespace EdgeKV

section Messages

inductive Op
  | put
  | delete
  | unknown (code : Int)
  deriving DecidableEq, Repr

structure Command where
  op : Op
  key : String
  value : Bytes := []
  hasExpectedVersion : Bool := false
  expectedVersion : UInt64 := 0
  requestId : String := ""
  cacheable : Bool := false
  ttlSeconds : UInt32 := 0
  timestampUnixMs : Int := 0
  deriving DecidableEq, Repr

inductive Status
  | ok
  | notFound
  | versionMismatch
  deriving DecidableEq, Repr

structure Result where
  status : Status := .ok
  version : UInt64 := 0
  deriving DecidableEq, Repr

structure SnapshotRecord where
  key : String
  value : Bytes
  version : UInt64
  deleted : Bool
  cacheable : Bool
  ttlSeconds : UInt32
  updatedUnixMs : Int
  deriving DecidableEq, Repr

structure SnapshotDedup where
  requestId : String
  index : Nat
  result : Option Result
  deriving DecidableEq, Repr

structure StoreSnapshot where
  records : List SnapshotRecord
  dedup : List SnapshotDedup
  deriving DecidableEq, Repr

/-- The protobuf encoding of one message type. -/
structure Codec (α : Type) where
  marshal : α → Bytes
  unmarshal : Bytes → Option α
  round : ∀ a, unmarshal (marshal a) = some a

/-- The encodings that the store is used with. -/
structure Codecs where
  command : Codec Command
  result : Codec Result
  snapshot : Codec StoreSnapshot

end Messages

/-- How many log entries a request ID is remembered for. -/
def defaultDedupWindow : Nat := 100000

/-- What a reader sees for a key. -/
structure Store.Entry where
  value : Bytes
  version : UInt64
  cacheable : Bool
  ttlSeconds : UInt32
  updatedUnixMs : Int
  deriving DecidableEq, Repr

/-- The internal representation of a key. A deleted key keeps its record. -/
structure Store.Record where
  value : Bytes := []
  version : UInt64 := 0
  deleted : Bool := false
  cacheable : Bool := false
  ttlSeconds : UInt32 := 0
  updatedMs : Int := 0
  deriving DecidableEq, Repr

/-- The outcome of a command; the result pointer may be nil. -/
structure Store.DedupEntry where
  index : Nat
  result : Option Result
  deriving DecidableEq, Repr

structure Store.DedupKey where
  index : Nat
  id : String
  deriving DecidableEq, Repr

structure Store where
  data : String → Option Store.Record := fun _ => none
  dedup : String → Option Store.DedupEntry := fun _ => none
  dedupOrder : List Store.DedupKey := []
  dedupWindow : Nat := defaultDedupWindow

inductive StoreError
  | notFound
  | versionMismatch
  deriving DecidableEq, Repr

namespace Store

variable (s : Store)

def get (key : String) : Except StoreError Entry :=
  match s.data key with
  | none => .error .notFound
  | some r =>
      if r.deleted then .error .notFound
      else .ok
        { value := r.value
          version := r.version
          cacheable := r.cacheable
          ttlSeconds := r.ttlSeconds
          updatedUnixMs := r.updatedMs }

/-- The version a client can observe: a missing or deleted key is version 0. -/
def visible (key : String) : UInt64 :=
  match s.data key with
  | none => 0
  | some r => if r.deleted then 0 else r.version

/-- The single place where records change; `none` is a panic. -/
def applyLocked (cmd : Command) : Option (Store × Result) :=
  let visible := s.visible cmd.key
  if cmd.hasExpectedVersion ∧ cmd.expectedVersion ≠ visible then
    some (s, { status := .versionMismatch, version := visible })
  else match cmd.op with
    | .put =>
        let r := (s.data cmd.key).getD {}
        let r' : Record :=
          { value := cmd.value
            version := r.version + 1
            deleted := false
            cacheable := cmd.cacheable
            ttlSeconds := cmd.ttlSeconds
            updatedMs := cmd.timestampUnixMs }
        some ({ s with data := Function.update s.data cmd.key (some r') },
          { status := .ok, version := r'.version })
    | .delete =>
        if visible = 0 then some (s, { status := .notFound })
        else
          (s.data cmd.key).map fun r =>
            let r' : Record :=
              { r with
                value := []
                version := r.version + 1
                deleted := true
                updatedMs := cmd.timestampUnixMs }
            ({ s with data := Function.update s.data cmd.key (some r') },
              { status := .ok, version := r'.version })
    | .unknown _ => none

/-- How far `index` is past `old`, as unsigned 64-bit subtraction gives it. -/
def age (index old : Nat) : Nat :=
  if old ≤ index then index - old else 2 ^ 64 - (old - index)

/-- The loop of `evictDedupLocked`. -/
def evictLoop (window index : Nat) :
    List DedupKey → (String → Option DedupEntry) → List DedupKey × (String → Option DedupEntry)
  | [], dedup => ([], dedup)
  | oldest :: rest, dedup =>
      if age index oldest.index ≤ window then (oldest :: rest, dedup)
      else evictLoop window index rest (Function.update dedup oldest.id none)

def evictDedupLocked (index : Nat) : Store :=
  let (dedupOrder, dedup) := evictLoop s.dedupWindow index s.dedupOrder s.dedup
  { s with dedupOrder, dedup }

/-- Remembers the result of a command, if it has a request ID. -/
def remember (index : Nat) (id : String) (res : Result) : Store :=
  if id = "" then s
  else
    { s with
      dedup := Function.update s.dedup id (some { index, result := some res })
      dedupOrder := s.dedupOrder ++ [{ index, id }] }

/-- The body of `Apply` between decoding the command and encoding the result. A nil
result would be encoded as the zero message. -/
def execute (index : Nat) (cmd : Command) : Option (Store × Result) :=
  let s := s.evictDedupLocked index
  match if cmd.requestId = "" then none else s.dedup cmd.requestId with
  | some prev => some (s, prev.result.getD {})
  | none => (s.applyLocked cmd).map fun (s', res) => (s'.remember index cmd.requestId res, res)

/-- Executes one committed log entry; `none` is a panic. -/
def apply (codecs : Codecs) (index : Nat) (data : Bytes) : Option (Store × Bytes) :=
  (codecs.command.unmarshal data).bind fun cmd =>
    (s.execute index cmd).map fun (s', res) => (s', codecs.result.marshal res)

def Record.snapshot (key : String) (r : Record) : SnapshotRecord :=
  { key
    value := r.value
    version := r.version
    deleted := r.deleted
    cacheable := r.cacheable
    ttlSeconds := r.ttlSeconds
    updatedUnixMs := r.updatedMs }

/-- `snap` is one of the snapshots of `s`: the records in some order, since the order
of a map is not fixed, and the table of requests in the order of the log. -/
structure Snapshots (snap : StoreSnapshot) : Prop where
  once : (snap.records.map (·.key)).Nodup
  records : ∀ x, x ∈ snap.records ↔ ∃ key r, s.data key = some r ∧ x = r.snapshot key
  dedup : snap.dedup = s.dedupOrder.map fun k =>
    { requestId := k.id, index := k.index, result := (s.dedup k.id).bind (·.result) }

/-- Replaces the whole state machine with a snapshot; the window stays. -/
def restore (snap : StoreSnapshot) : Store :=
  { s with
    data := snap.records.foldl
      (fun data x => Function.update data x.key (some
        { value := x.value
          version := x.version
          deleted := x.deleted
          cacheable := x.cacheable
          ttlSeconds := x.ttlSeconds
          updatedMs := x.updatedUnixMs }))
      fun _ => none
    dedup := snap.dedup.foldl
      (fun dedup x => Function.update dedup x.requestId (some { index := x.index, result := x.result }))
      fun _ => none
    dedupOrder := snap.dedup.map fun x => { index := x.index, id := x.requestId } }

/-- The store as the state machine of a Raft group. -/
def machine (codecs : Codecs) (window : Nat) : StateMachine Store where
  init := { dedupWindow := window }
  apply := fun s index data => s.apply codecs index data
  snapshot := fun s data => ∃ snap, s.Snapshots snap ∧ data = codecs.snapshot.marshal snap
  restore := fun data =>
    (codecs.snapshot.unmarshal data).map fun snap => restore { dedupWindow := window } snap

end Store
end EdgeKV
