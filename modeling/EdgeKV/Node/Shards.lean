import EdgeKV.Linearizability.Locality
import EdgeKV.Node.Cluster
import EdgeKV.Url

/-!
A process that hosts one replica of every shard. Keys are mapped to shards by a hash that
is the same everywhere; each shard is a group of its own, and every message names its group.
A crash takes all replicas of the process down.
-/
namespace EdgeKV

open Linearizability (Event)

/-- FNV-1a with 32 bits. -/
def fnv32a (data : Bytes) : UInt32 :=
  data.foldl (fun hash b => (hash ^^^ b.toUInt32) * 16777619) 2166136261

/-- `shard.ForKey` -/
def forKey (key : String) (numShards : Nat) : Nat :=
  if numShards ≤ 1 then 0 else (fnv32a (Url.utf8 key) % UInt32.ofNat numShards).toNat

/-- The shard is one that `Node.shards` has, if their number fits the hash. -/
theorem forKey_lt {numShards : Nat} (pos : 0 < numShards) (fits : numShards < 2 ^ 32)
    (key : String) : forKey key numShards < numShards := by
  rw [forKey]
  split
  · exact pos
  next several =>
    have size : (UInt32.ofNat numShards).toNat = numShards := UInt32.toNat_ofNat_of_lt fits
    rw [UInt32.toNat_mod, size]
    exact Nat.mod_lt _ pos

def Request.key : Request → String
  | .write w => w.key
  | .get key => key

/-- The operation that call `i` is an attempt of. -/
def Progress.op (i : Nat) : Progress → OpId
  | .writing cmd => .write cmd.requestId
  | .proposed cmd => .write cmd.requestId
  | .reading _ => .get i
  | .asked _ _ => .get i
  | .confirmed _ => .get i

variable {ID : Type}

/-- An event of a client of some shard. -/
abbrev ShardEvent := Event (Nat × OpId) Request Response

/-- The processes of a cluster, each with a replica of every shard. Calls and read requests
of a shard take their numbers from a counter of the shard. -/
structure MultiRaft (ID : Type) where
  replicas : ID → Nat → Process ID Store
  net : List (Nat × Msg ID) := []
  calls : Nat → Nat → Option (NodeCall ID) := fun _ _ => none
  history : List ShardEvent := []
  nextId : Nat → Nat := fun _ => 0

namespace MultiRaft

variable (m : MultiRaft ID)

/-- `Handler`: the replica that a message of the group is for. -/
def handler (numShards : Nat) (n : ID) (group : Nat) : Option (Process ID Store) :=
  if numShards ≤ group then none else some (m.replicas n group)

/-- The messages of a group. -/
def messages (group : Nat) : List (Msg ID) :=
  (m.net.filter fun x => decide (x.1 = group)).map Prod.snd

/-- What the clients of a shard see. -/
def shardHistory (s : Nat) : List ClientEvent :=
  (m.history.filter fun e => decide (e.op.1 = s)).map (Event.relabel Prod.snd)

/-- One shard, with the calls on it. -/
def cluster (s : Nat) : Cluster ID where
  group := { procs := fun n => m.replicas n s, net := m.messages s }
  calls := m.calls s
  history := m.shardHistory s
  nextId := m.nextId s

/-- One shard has become `c`: what is new on its network and in its history is new in the
whole. -/
def setCluster (s : Nat) (c : Cluster ID) : MultiRaft ID where
  replicas := fun n => Function.update (m.replicas n) s (c.group.procs n)
  net := m.net ++ (c.group.net.drop (m.messages s).length).map (s, ·)
  calls := Function.update m.calls s c.calls
  history := m.history ++
    (c.history.drop (m.shardHistory s).length).map (Event.relabel (s, ·))
  nextId := Function.update m.nextId s c.nextId

/-- Process `n` is replaced by one with other replicas, and its calls are gone. -/
def restart [DecidableEq ID] (n : ID) (replicas : Nat → Process ID Store) : MultiRaft ID :=
  { m with
    replicas := Function.update m.replicas n replicas
    calls := fun s i => (m.calls s i).filter fun call => call.node ≠ n }

end MultiRaft

namespace MultiRaft

variable [DecidableEq ID] (cfg : Config ID) (codecs : Codecs) (window : Nat) (T : Transport)
  (numShards : Nat)

/-- A step of one shard, or a crash of a process. A call goes to the shard that owns its
key. -/
inductive Step : MultiRaft ID → MultiRaft ID → Prop
  | shard {m : MultiRaft ID} {s : Nat} {c : Cluster ID} (hosted : s < numShards)
      (step : Cluster.Step cfg codecs window T (m.cluster s) c)
      (owned : ∀ op request, .invoke op request ∈ c.history → forKey request.key numShards = s) :
      Step m (m.setCluster s c)
  | crash {m : MultiRaft ID} {n : ID} {replicas : Nat → Process ID Store}
      (restarts : ∀ s < numShards, ∃ ops store,
        Interrupted cfg (Store.machine codecs window) T (m.cluster s).group n ops ∧
          (m.replicas n s).storage.performAll ops = some store ∧
          Process.start (Store.machine codecs window) store (m.replicas n s).clock =
            some (replicas s)) :
      Step m (m.restart n replicas)

def initial (codecs : Codecs) (window : Nat) : MultiRaft ID where
  replicas := fun _ _ =>
    { raft := {}, storage := {}, machine := (Store.machine codecs window).init }

/-- A run that ends in `m`, with the states it went through. -/
inductive Run : List (MultiRaft ID) → MultiRaft ID → Prop
  | initial : Run [initial codecs window] (initial codecs window)
  | step {run : List (MultiRaft ID)} {m m' : MultiRaft ID} (h : Run run m)
      (next : Step cfg codecs window T numShards m m') : Run (m' :: run) m'

end MultiRaft
end EdgeKV
