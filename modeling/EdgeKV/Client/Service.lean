import EdgeKV.Client.Client
import EdgeKV.Linearizability.Attempts
import EdgeKV.Node.Shards

/-!
The whole system, from the callers of the client to the shards. An operation is one call of the
client; it sends HTTP requests, one after the other, until one of them is answered for good. A
node serves each request that reaches it on its own, also when nobody waits for the answer any
more, and may send it on to another node. What the callers see and what the shards see is kept
in one trace.
-/
namespace EdgeKV

open Linearizability (Event Trace)
open Server (KvRequest Method Hop Reply)
open Client (Out DoError Heard)

variable {ID : Type}

/-- What a caller is told of the store. -/
inductive Answer
  | version (version : UInt64)
  | entry (value : Bytes) (version : UInt64)
  | notFound
  | versionMismatch
  deriving DecidableEq, Repr

namespace Answer

/-- A response of the store as callers see it. -/
def ofResponse : Response → Answer
  | .wrote res =>
      match res.status with
      | .ok => .version res.version
      | .notFound => .notFound
      | .versionMismatch => .versionMismatch
  | .got none => .notFound
  | .got (some (payload, v)) => .entry payload.value v

/-- What the result of `do` says about the store. -/
def ofResult : Except DoError Out → Option Answer
  | .ok (.version v) => some (.version v)
  | .ok (.entry value v) => some (.entry value v)
  | .error .notFound => some .notFound
  | .error .versionMismatch => some .versionMismatch
  | .error .notCacheable | .error .canceled | .error .givingUp => none

end Answer

/-- The nodes: they run with the same settings, and each listens at a base URL. -/
structure Deployment (ID : Type) where
  gateway : Server.Gateway
  numShards : Nat
  name : ID → String
  nodeAt : String → Option ID

def Deployment.config (d : Deployment ID) (n : ID) : Server.Config :=
  { d.gateway.toConfig with nodeId := d.name n, shardFor := fun key => forKey key d.numShards }

/-- Where the handler of a request is: inside `Node.Write` or `Node.Get` of a shard, waiting for
the leader, or done. An answer comes with the operation of the shard that it tells of. -/
inductive Phase
  | arrived
  | calling (shard call : Nat) (requestId : String)
  | forwarding (err : Server.RaftError) (next : Nat)
  | answered (reply : Reply) (source : Option (Nat × OpId))

/-- A request at a node, on behalf of an operation. -/
structure HttpExchange (ID : Type) where
  op : Nat
  node : ID
  request : KvRequest
  phase : Phase := .arrived

/-- Where the loop of `do` is. -/
inductive OpState
  | sending (attempt : Nat) (target : String)
  | waiting (attempt : Nat) (target : String) (exchange : Nat)
  | returned (result : Except DoError Out)

/-- A call of the client. The ID of a request that carries none is the one that the first node
draws for it. The calls of `Node.Get` that were made for the operation and the source of its
answer are kept for the record. -/
structure Operation where
  client : Nat
  request : KvRequest
  requestId : String
  state : OpState
  reads : List (Nat × Nat) := []
  source : Option (Nat × OpId) := none

structure Service (ID : Type) where
  servers : MultiRaft ID
  clients : Nat → Client
  ops : Nat → Option Operation := fun _ => none
  exchanges : Nat → Option (HttpExchange ID) := fun _ => none
  nextOp : Nat := 0
  nextExchange : Nat := 0
  trace : Trace Nat (Nat × OpId) Request Answer Response := []

/-- The attempt that is under way and the node that it goes to. -/
def OpState.attempt : OpState → Option (Nat × String)
  | .sending attempt target => some (attempt, target)
  | .waiting attempt target _ => some (attempt, target)
  | .returned _ => none

namespace Cluster

variable (c : Cluster ID)

/-- A call of `Node.Write` begins. -/
def write (n : ID) (cmd : Command) (w : Write) (now : Int) : Cluster ID :=
  (c.setCall c.nextId (some ⟨n, .writing (cmd.stamp now)⟩)).take.invoke (.write cmd.requestId)
    (.write w)

/-- A call of `Node.Get` begins. -/
def get (n : ID) (key : String) : Cluster ID :=
  (c.setCall c.nextId (some ⟨n, .reading key⟩)).take.record (.invoke (.get c.nextId) (.get key))

end Cluster

namespace Service

variable (sys : Service ID)

def setOp (k : Nat) (op : Operation) : Service ID :=
  { sys with ops := Function.update sys.ops k (some op) }

def setExchange (e : Nat) (x : HttpExchange ID) : Service ID :=
  { sys with exchanges := Function.update sys.exchanges e (some x) }

/-- One shard has become `c`; what is new in its history is new in the trace. -/
def setShard (s : Nat) (c : Cluster ID) : Service ID :=
  { sys with
    servers := sys.servers.setCluster s c
    trace := sys.trace ++
      (c.history.drop (sys.servers.shardHistory s).length).map fun e => .inr (e.relabel (s, ·)) }

/-- Something happens that callers see. -/
def tell (news : Option (Event Nat Request Answer)) : Service ID :=
  { sys with trace := sys.trace ++ (news.map .inl).toList }

/-- A new operation. One that is refused asks nothing of the store. -/
def start (d : Deployment ID) (client : Nat) (request : KvRequest) (requestId : String) :
    Service ID :=
  { sys with
    ops := Function.update sys.ops sys.nextOp (some
      { client, request, requestId
        state := .sending 0 ((sys.clients client).pickNode request.key) })
    nextOp := sys.nextOp + 1
    trace := sys.trace ++
      ((d.gateway.meaning request.key request.method).map fun r =>
        .inl (.invoke sys.nextOp r)).toList }

/-- A new request at the node that listens at `url`, if there is one. -/
def send (d : Deployment ID) (op : Nat) (url : String) (request : KvRequest) : Service ID :=
  { sys with
    exchanges := Function.update sys.exchanges sys.nextExchange
      ((d.nodeAt url).map fun node => { op, node, request })
    nextExchange := sys.nextExchange + 1 }

/-- The loop of `do` goes on after a request has returned. -/
def conclude (k : Nat) (op : Operation) (attempt : Nat) (target : String) (heard : Heard)
    (source : Option (Nat × OpId)) : Service ID :=
  let after := (sys.clients op.client).afterRequest op.request.key attempt target heard
  let sys := { sys with clients := Function.update sys.clients op.client after.1 }
  match after.2 with
  | .again target => sys.setOp k { op with state := .sending (attempt + 1) target }
  | .done result =>
      (sys.setOp k { op with state := .returned result, source }).tell
        ((Answer.ofResult result).map (.respond k))

/-- Process `n` is replaced by one with other replicas; the requests that it was serving are
gone. -/
def restart [DecidableEq ID] (n : ID) (replicas : Nat → Process ID Store) : Service ID :=
  { sys with
    servers := sys.servers.restart n replicas
    exchanges := fun e => (sys.exchanges e).filter fun x => x.node ≠ n }

end Service

namespace Service

variable [DecidableEq ID] (cfg : Config ID) (codecs : Codecs) (window : Nat) (T : Transport)
  (d : Deployment ID)

/-- A step of a caller, of a handler or of the servers. Requests and answers may be lost at any
time, a call of a node may fail at any time, and a node may name any leader. -/
inductive Step : Service ID → Service ID → Prop
  | start {sys : Service ID} {client : Nat} {request : KvRequest} {id : String}
      (fresh : ∀ k op, sys.ops k = some op → op.requestId ≠ id) (nonempty : id ≠ "")
      (carries : request.Carries id)
      (once : request.Named ∨ (sys.clients client).retries ≤ 1) :
      Step sys (sys.start d client request id)
  | send {sys : Service ID} {k attempt : Nat} {op : Operation} {target : String}
      (here : sys.ops k = some op) (state : op.state = .sending attempt target)
      (left : attempt < (sys.clients op.client).retries) :
      Step sys
        ((sys.send d k target op.request).setOp k
          { op with state := .waiting attempt target sys.nextExchange })
  | giveUp {sys : Service ID} {k attempt : Nat} {op : Operation} {target : String}
      (here : sys.ops k = some op) (state : op.state = .sending attempt target)
      (spent : (sys.clients op.client).retries ≤ attempt) :
      Step sys (sys.setOp k { op with state := .returned (.error .givingUp) })
  | lost {sys : Service ID} {k attempt : Nat} {op : Operation} {target text : String} {heard : Heard}
      (here : sys.ops k = some op) (state : op.state.attempt = some (attempt, target))
      (result : heard.result = .error (.other text)) :
      Step sys (sys.conclude k op attempt target heard none)
  | receive {sys : Service ID} {k attempt e : Nat} {op : Operation} {target : String}
      {x : HttpExchange ID} {reply : Reply} {source : Option (Nat × OpId)} {heard : Heard}
      (here : sys.ops k = some op) (state : op.state = .waiting attempt target e)
      (exchange : sys.exchanges e = some x) (phase : x.phase = .answered reply source)
      (result : heard.result = Client.request reply) (header : heard.shard = reply.shard) :
      Step sys (sys.conclude k op attempt target heard source)
  | write {sys : Service ID} {e s : Nat} {x : HttpExchange ID} {op : Operation} {edit : Server.Edit}
      {cmd : Command} {w : Write} {now : Int}
      (exchange : sys.exchanges e = some x) (phase : x.phase = .arrived)
      (method : x.request.method = .edit edit) (here : sys.ops x.op = some op)
      (command : d.gateway.command x.request.key x.request.headerId op.requestId edit = .ok cmd)
      (means : cmd.write = some w) (shard : s = forKey cmd.key d.numShards) :
      Step sys
        ((sys.setShard s (.write (sys.servers.cluster s) x.node cmd w now)).setExchange e
          { x with phase := .calling s (sys.servers.nextId s) cmd.requestId })
  | refuse {sys : Service ID} {e : Nat} {x : HttpExchange ID} {edit : Server.Edit} {newId : String}
      {resp : Server.Response} (exchange : sys.exchanges e = some x) (phase : x.phase = .arrived)
      (method : x.request.method = .edit edit)
      (command : d.gateway.command x.request.key x.request.headerId newId edit = .error resp) :
      Step sys (sys.setExchange e { x with phase := .answered { toResponse := resp } none })
  | get {sys : Service ID} {e s : Nat} {x : HttpExchange ID} {op : Operation}
      (exchange : sys.exchanges e = some x) (phase : x.phase = .arrived)
      (method : x.request.method = .get) (here : sys.ops x.op = some op)
      (shard : s = forKey x.request.key d.numShards) :
      Step sys
        (((sys.setShard s (.get (sys.servers.cluster s) x.node x.request.key)).setExchange e
          { x with phase := .calling s (sys.servers.nextId s) "" }).setOp x.op
          { op with reads := (s, sys.servers.nextId s) :: op.reads })
  | wrote {sys : Service ID} {e s i : Nat} {x : HttpExchange ID} {id : String} {cmd : Command}
      {q : Proposal} {out : Bytes} {res : Result} {hop : Hop} (hosted : s < d.numShards)
      (exchange : sys.exchanges e = some x) (phase : x.phase = .calling s i id)
      (call : (sys.servers.cluster s).calls i = some ⟨x.node, .proposed cmd⟩)
      (told : (q, .ok out) ∈ ((sys.servers.cluster s).group.procs x.node).raft.done)
      (own : q.id = i) (decoded : codecs.result.unmarshal out = some res) :
      Step sys
        ((sys.setShard s
          (((sys.servers.cluster s).setCall i none).record
            (.respond (.write cmd.requestId) (.wrote res)))).setExchange e
          { x with
            phase := .answered ((d.config x.node).wroteReply x.request cmd hop res)
              (some (s, .write cmd.requestId)) })
  | got {sys : Service ID} {e s i : Nat} {x : HttpExchange ID} {id key : String} {hop : Hop}
      (hosted : s < d.numShards)
      (exchange : sys.exchanges e = some x) (phase : x.phase = .calling s i id)
      {entry : Option Store.Entry}
      (call : (sys.servers.cluster s).calls i = some ⟨x.node, .confirmed key⟩)
      (read : (((sys.servers.cluster s).group.procs x.node).machine.get key).toOption = entry) :
      Step sys
        ((sys.setShard s
          (((sys.servers.cluster s).setCall i none).record
            (.respond (.get i) (.got (entry.map Store.Entry.read))))).setExchange e
          { x with
            phase := .answered ((d.config x.node).gotReply x.request hop entry)
              (some (s, .get i)) })
  | failed {sys : Service ID} {e s i : Nat} {x : HttpExchange ID} {id : String} {err : Server.RaftError}
      {hop : Hop} (hosted : s < d.numShards)
      (exchange : sys.exchanges e = some x) (phase : x.phase = .calling s i id)
      (stays : (d.config x.node).forwardURL x.request.toRouting err = none) :
      Step sys
        ((sys.setShard s ((sys.servers.cluster s).setCall i none)).setExchange e
          { x with phase := .answered ((d.config x.node).errorReply x.request err hop none) none })
  | forward {sys : Service ID} {e s i : Nat} {x : HttpExchange ID} {id url : String} {err : Server.RaftError}
      (hosted : s < d.numShards)
      (exchange : sys.exchanges e = some x) (phase : x.phase = .calling s i id)
      (forwards : (d.config x.node).forwardURL x.request.toRouting err = some url) :
      Step sys
        (((sys.setShard s ((sys.servers.cluster s).setCall i none)).send d x.op url
          (x.request.forward id)).setExchange e
          { x with phase := .forwarding err sys.nextExchange })
  | relay {sys : Service ID} {e next : Nat} {x y : HttpExchange ID} {err : Server.RaftError} {reply : Reply}
      {source : Option (Nat × OpId)}
      (exchange : sys.exchanges e = some x) (phase : x.phase = .forwarding err next)
      (other : sys.exchanges next = some y) (answered : y.phase = .answered reply source) :
      Step sys
        (sys.setExchange e
          { x with
            phase := .answered
              ((d.config x.node).errorReply x.request err (.answered reply.toResponse) reply.shard)
              source })
  | hopLost {sys : Service ID} {e next : Nat} {x : HttpExchange ID} {err : Server.RaftError} {hop : Hop}
      (exchange : sys.exchanges e = some x) (phase : x.phase = .forwarding err next)
      (lost : ∀ resp, hop ≠ .answered resp) :
      Step sys
        (sys.setExchange e
          { x with phase := .answered ((d.config x.node).errorReply x.request err hop none) none })
  | serve {sys : Service ID} {s : Nat} {c : Cluster ID} (hosted : s < d.numShards)
      (step : Cluster.Step cfg codecs window T (sys.servers.cluster s) c)
      (silent : c.history = (sys.servers.cluster s).history)
      (calls : ∀ i call, c.calls i = some call → ∃ call₀,
        (sys.servers.cluster s).calls i = some call₀ ∧ call.progress.op i = call₀.progress.op i) :
      Step sys (sys.setShard s c)
  | crash {sys : Service ID} {n : ID} {replicas : Nat → Process ID Store}
      (restarts : ∀ s < d.numShards, ∃ ops store,
        Interrupted cfg (Store.machine codecs window) T (sys.servers.cluster s).group n ops ∧
          (sys.servers.replicas n s).storage.performAll ops = some store ∧
          Process.start (Store.machine codecs window) store (sys.servers.replicas n s).clock =
            some (replicas s)) :
      Step sys (sys.restart n replicas)

def initial (codecs : Codecs) (window : Nat) (clients : Nat → Client) : Service ID where
  servers := MultiRaft.initial codecs window
  clients

/-- A run that ends in `sys`, with the states it went through. -/
inductive Run (clients : Nat → Client) : List (Service ID) → Service ID → Prop
  | initial : Run clients [initial codecs window clients] (initial codecs window clients)
  | step {run : List (Service ID)} {sys sys' : Service ID} (h : Run clients run sys)
      (next : Step cfg codecs window T d sys sys') : Run clients (sys' :: run) sys'

end Service
end EdgeKV
