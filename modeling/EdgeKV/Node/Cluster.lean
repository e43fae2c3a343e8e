import EdgeKV.Raft.Replay
import EdgeKV.Store.Log

/-!
Clients of one shard: the calls of `Node.Write` and `Node.Get` on a group whose state
machine is the store, and the history of what they asked and were told. A call runs
inside the process of its node and dies with it. An operation that writes is known
by its request ID; all attempts of it are calls of their own.
-/
namespace EdgeKV

open Linearizability (Event)

variable {ID : Type}

inductive OpId
  | write (requestId : String)
  | get (call : Nat)
  deriving DecidableEq, Repr

/-- How far a call has come: `writing` has its command stamped, `asked` waits in
`ReadIndex` with a read request of its own, `confirmed` is past it. -/
inductive Progress
  | writing (cmd : Command)
  | proposed (cmd : Command)
  | reading (key : String)
  | asked (key : String) (read : Nat)
  | confirmed (key : String)
  deriving DecidableEq, Repr

structure NodeCall (ID : Type) where
  node : ID
  progress : Progress
  deriving DecidableEq, Repr

abbrev ClientEvent := Event OpId Request Response

/-- A group, the calls that run on its nodes and the history so far. Calls and read
requests take their numbers from one counter. -/
structure Cluster (ID : Type) where
  group : Group ID Store
  calls : Nat → Option (NodeCall ID) := fun _ => none
  history : List ClientEvent := []
  nextId : Nat := 0

/-- Whether the action hands in a request of a client. -/
def Action.fromClient : Action ID → Bool
  | .client (.propose _ _) => true
  | .client (.readIndex _) => true
  | _ => false

/-- The command of a call of `Node.Write`: the node stamps it with its time. -/
def Command.stamp (cmd : Command) (now : Int) : Command := { cmd with timestampUnixMs := now }

namespace Cluster

variable (c : Cluster ID)

def setCall (i : Nat) (call : Option (NodeCall ID)) : Cluster ID :=
  { c with calls := Function.update c.calls i call }

def record (e : ClientEvent) : Cluster ID := { c with history := c.history ++ [e] }

/-- A new number for a call or a read request. -/
def take : Cluster ID := { c with nextId := c.nextId + 1 }

/-- An operation is invoked by its first attempt. -/
def invoke (op : OpId) (request : Request) : Cluster ID :=
  if .invoke op request ∈ c.history then c else c.record (.invoke op request)

end Cluster

namespace Cluster

variable [DecidableEq ID] (cfg : Config ID) (codecs : Codecs) (window : Nat) (T : Transport)

/-- A step of the group or of one call. Any call may give up at any time, which is how
it returns an error. -/
inductive Step : Cluster ID → Cluster ID → Prop
  | node {c : Cluster ID} {n : ID} {act : Action ID} {g' : Group ID Store}
      (inner : act.fromClient = false)
      (performs : Group.Performs cfg (Store.machine codecs window) T n act c.group g') :
      Step c { c with group := g' }
  | crash {c : Cluster ID} {n : ID} {g' : Group ID Store}
      (crashes : Group.Crashes cfg (Store.machine codecs window) T n c.group g') :
      Step c
        { c with
          group := g'
          calls := fun i => (c.calls i).filter fun call => call.node ≠ n }
  | write {c : Cluster ID} {n : ID} {cmd : Command} {w : Write} {now : Int}
      (means : cmd.write = some w) (named : cmd.requestId ≠ "")
      (own : ∀ request, .invoke (.write cmd.requestId) request ∈ c.history → request = .write w) :
      Step c
        ((c.setCall c.nextId (some ⟨n, .writing (cmd.stamp now)⟩)).take.invoke
          (.write cmd.requestId) (.write w))
  | propose {c : Cluster ID} {i : Nat} {n : ID} {cmd : Command} {g' : Group ID Store}
      (call : c.calls i = some ⟨n, .writing cmd⟩)
      (performs : Group.Performs cfg (Store.machine codecs window) T n
        (.client (.propose i (codecs.command.marshal cmd))) c.group g') :
      Step c { c.setCall i (some ⟨n, .proposed cmd⟩) with group := g' }
  | wrote {c : Cluster ID} {i : Nat} {n : ID} {cmd : Command} {q : Proposal} {out : Bytes}
      {res : Result} (call : c.calls i = some ⟨n, .proposed cmd⟩)
      (told : (q, .ok out) ∈ (c.group.procs n).raft.done) (own : q.id = i)
      (decoded : codecs.result.unmarshal out = some res) :
      Step c ((c.setCall i none).record (.respond (.write cmd.requestId) (.wrote res)))
  | get {c : Cluster ID} {n : ID} {key : String} :
      Step c
        ((c.setCall c.nextId (some ⟨n, .reading key⟩)).take.record
          (.invoke (.get c.nextId) (.get key)))
  | ask {c : Cluster ID} {i : Nat} {n : ID} {key : String} {g' : Group ID Store}
      (call : c.calls i = some ⟨n, .reading key⟩)
      (performs : Group.Performs cfg (Store.machine codecs window) T n
        (.client (.readIndex c.nextId)) c.group g') :
      Step c { (c.setCall i (some ⟨n, .asked key c.nextId⟩)).take with group := g' }
  | notReady {c : Cluster ID} {i read : Nat} {n : ID} {key : String}
      (call : c.calls i = some ⟨n, .asked key read⟩)
      (told : (read, .error .notReady) ∈ (c.group.procs n).readDone) :
      Step c (c.setCall i (some ⟨n, .reading key⟩))
  | confirm {c : Cluster ID} {i read index : Nat} {n : ID} {key : String}
      (call : c.calls i = some ⟨n, .asked key read⟩)
      (told : (read, .ok index) ∈ (c.group.procs n).readDone)
      (applied : index ≤ (c.group.procs n).raft.lastApplied) :
      Step c (c.setCall i (some ⟨n, .confirmed key⟩))
  | got {c : Cluster ID} {i : Nat} {n : ID} {key : String}
      (call : c.calls i = some ⟨n, .confirmed key⟩) :
      Step c
        ((c.setCall i none).record (.respond (.get i)
          (.got (((c.group.procs n).machine.get key).toOption.map Store.Entry.read))))
  | giveUp {c : Cluster ID} {i : Nat} : Step c (c.setCall i none)

def initial (codecs : Codecs) (window : Nat) : Cluster ID where
  group := Group.initial (Store.machine codecs window)

/-- A run that ends in `c`, with the states it went through. -/
inductive Run : List (Cluster ID) → Cluster ID → Prop
  | initial : Run [initial codecs window] (initial codecs window)
  | step {run : List (Cluster ID)} {c c' : Cluster ID} (h : Run run c)
      (next : Step cfg codecs window T c c') : Run (c' :: run) c'

end Cluster

/-- Some machine was taken through the committed entry `e` in the course of the run. -/
def Cluster.Applied (run : List (Cluster ID)) (e : Entry) : Prop :=
  (∃ c ∈ run, c.group.Commits e) ∧ ∃ c ∈ run, ∃ n, e.index ≤ (c.group.procs n).position

/-- No attempt of an operation is applied more than `window` indexes after its first. -/
def Cluster.WithinWindow (codecs : Codecs) (window : Nat) (run : List (Cluster ID)) : Prop :=
  ∀ e e' id, Cluster.Applied run e → Cluster.Applied run e' → e.requestId codecs = some id →
    e'.requestId codecs = some id → e'.index ≤ e.index + window

end EdgeKV
