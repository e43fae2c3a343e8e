import EdgeKV.Edge.Cache
import EdgeKV.Node.Cluster
import EdgeKV.Server.Answers
import EdgeKV.Store.Runs

/-!
An edge in front of a cluster, with a clock. Requests to the edge go through the stages of
`handle` on their own: they read the clock, look up an entry, ask the origin and come back to a
cache that has changed meanwhile. The origin answers from its records at one moment in between.
-/
namespace EdgeKV.Edge

open Server (Gateway Routing CacheRequest PutRequest Answers)

/-- What the origin makes of a URI: the key and the first `v` of the query. -/
structure Route where
  key : String
  v : String := ""
  deriving DecidableEq, Repr

/-- The flags of the edge. -/
structure Options where
  delay : Int := 0
  failInval : Bool := false
  deriving DecidableEq, Repr

structure Setting where
  nodes : List Gateway
  codecs : Codecs
  window : Nat
  route : Bytes → Route
  opts : Options

/-- The request for a URI as it arrives at a node. -/
def Setting.request (env : Setting) (uri : Bytes) (ifNoneMatch : String) (routing : Routing) :
    CacheRequest where
  toRouting := routing
  key := (env.route uri).key
  v := (env.route uri).v
  ifNoneMatch

/-- How far `handle` has come with a request. The clock was read as `now`, `ent` is the entry
that was found. -/
inductive Stage
  | arrived
  | started (now : Int)
  | looked (now : Int) (ent : Option Nat)
  | sent (now : Int) (ent : Option Nat) (ifNoneMatch : String)
  | replied (now : Int) (ent : Option Nat) (reply : Except String Server.Response)

structure Request where
  uri : Bytes
  ifNoneMatch : String
  arrived : Int
  stage : Stage := .arrived

inductive Source
  | origin
  | edge (xCache : Option XCache)
  deriving DecidableEq, Repr

/-- A response that a client has got. -/
structure Served where
  uri : Bytes
  arrived : Int
  source : Source
  response : Server.Response
  deriving DecidableEq, Repr

structure System where
  clock : Int := 0
  origin : Store
  calls : List Store.Call := []
  cache : Cache := {}
  timers : List (Int × List Bytes) := []
  requests : Nat → Option Request := fun _ => none
  served : List Served := []

namespace System

variable (s : System)

/-- The request goes on to its next stage. -/
def proceed (i : Nat) (r : Request) (stage : Stage) : System :=
  { s with requests := Function.update s.requests i (some { r with stage }) }

/-- The request is answered. -/
def finish (i : Nat) (r : Request) (cache : Cache) (xCache : Option XCache) (response : Server.Response) :
    System :=
  { s with
    cache
    requests := Function.update s.requests i none
    served := s.served ++ [⟨r.uri, r.arrived, .edge xCache, response⟩] }

theorem requests_proceed (i : Nat) (r : Request) (stage : Stage) :
    (s.proceed i r stage).requests = Function.update s.requests i (some { r with stage }) := rfl

theorem requests_finish (i : Nat) (r : Request) (cache : Cache) (xCache : Option XCache)
    (response : Server.Response) :
    (s.finish i r cache xCache response).requests = Function.update s.requests i none := rfl

theorem mem_finish (i : Nat) (r : Request) (cache : Cache) (xCache : Option XCache)
    (response : Server.Response) :
    ⟨r.uri, r.arrived, .edge xCache, response⟩ ∈ (s.finish i r cache xCache response).served :=
  List.mem_append_right _ (List.mem_singleton_self _)

def handleInvalidate (opts : Options) (paths : List Bytes) : System :=
  if opts.failInval then s
  else if 0 < opts.delay then { s with timers := s.timers ++ [(s.clock + opts.delay, paths)] }
  else { s with cache := s.cache.apply paths }

end System

/-- A command that a node makes of a request. -/
inductive Issues (g : Gateway) : Command → Prop
  | put {key : String} {req : PutRequest} {expectedVersion headerId newId : String} {cmd : Command}
      (named : newId ≠ "")
      (made : g.handlePut key req expectedVersion headerId newId = .ok cmd) : Issues g cmd
  | delete {key queryId headerId newId : String} (named : newId ≠ "") :
      Issues g (Gateway.handleDelete key queryId headerId newId)

inductive Step (env : Setting) : System → System → Prop
  | tick {s : System} {t : Int} (later : s.clock ≤ t) : Step env s { s with clock := t }
  | write {s : System} {g : Gateway} {cmd : Command} {now : Int} {index : Nat} {store : Store}
      {out : Bytes} {res : Result} (node : g ∈ env.nodes) (issued : Issues g cmd)
      -- The log starts at index 1, and an index is an unsigned 64-bit number.
      (positive : 0 < index) (bounded : index < 2 ^ 64)
      (rising : ∀ x ∈ s.calls, x.index < index)
      (applied : s.origin.apply env.codecs index (env.codecs.command.marshal (cmd.stamp now)) =
        some (store, out))
      (result : env.codecs.result.unmarshal out = some res) :
      Step env s
        { s with
          origin := store
          calls := s.calls ++ [⟨index, cmd.stamp now, s.origin, store, res⟩] }
  | direct {s : System} {uri : Bytes} {ifNoneMatch : String} {routing : Routing} {resp : Server.Response}
      (answer : Answers env.nodes s.origin (env.request uri ifNoneMatch routing) resp) :
      Step env s { s with served := s.served ++ [⟨uri, s.clock, .origin, resp⟩] }
  | arrive {s : System} {i : Nat} (free : s.requests i = none) (uri : Bytes) (ifNoneMatch : String) :
      Step env s (s.proceed i ⟨uri, ifNoneMatch, s.clock, .arrived⟩ .arrived)
  | start {s : System} {i : Nat} {r : Request} (here : s.requests i = some r)
      (stage : r.stage = .arrived) : Step env s (s.proceed i r (.started s.clock))
  | lookup {s : System} {i : Nat} {r : Request} {now : Int} (here : s.requests i = some r)
      (stage : r.stage = .started now) :
      Step env s (s.proceed i r (.looked now (s.cache.entries r.uri)))
  | hit {s : System} {i : Nat} {r : Request} {now : Int} {ent : Option Nat} {cell : Cell}
      (here : s.requests i = some r) (stage : r.stage = .looked now ent)
      (found : s.cache.deref ent = some cell) (fresh : now < cell.entry.expires) :
      Step env s (s.finish i r s.cache (some .hit) cell.entry.response)
  | send {s : System} {i : Nat} {r : Request} {now : Int} {ent : Option Nat}
      (here : s.requests i = some r) (stage : r.stage = .looked now ent)
      (expired : s.cache.fresh ent now = false) :
      Step env s (s.proceed i r (.sent now ent (s.cache.conditional ent r.ifNoneMatch)))
  | answer {s : System} {i : Nat} {r : Request} {now : Int} {ent : Option Nat}
      {ifNoneMatch : String} {routing : Routing} {resp : Server.Response} (here : s.requests i = some r)
      (stage : r.stage = .sent now ent ifNoneMatch)
      (answer : Answers env.nodes s.origin (env.request r.uri ifNoneMatch routing) resp) :
      Step env s (s.proceed i r (.replied now ent (.ok resp)))
  | lose {s : System} {i : Nat} {r : Request} {now : Int} {ent : Option Nat} {ifNoneMatch : String}
      (here : s.requests i = some r) (stage : r.stage = .sent now ent ifNoneMatch) (err : String) :
      Step env s (s.proceed i r (.replied now ent (.error err)))
  | receive {s : System} {i : Nat} {r : Request} {now : Int} {ent : Option Nat}
      {reply : Except String Server.Response} {cache : Cache} {xCache : Option XCache} {resp : Server.Response}
      (here : s.requests i = some r) (stage : r.stage = .replied now ent reply)
      (received : s.cache.receive r.uri now ent reply = (cache, xCache, resp)) :
      Step env s (s.finish i r cache xCache resp)
  | invalidate {s : System} (paths : List Bytes) : Step env s (s.handleInvalidate env.opts paths)
  | fire {s : System} {before after : List (Int × List Bytes)} {due : Int} {paths : List Bytes}
      (timer : s.timers = before ++ (due, paths) :: after) (passed : due ≤ s.clock) :
      Step env s { s with timers := before ++ after, cache := s.cache.apply paths }
  | flush {s : System} : Step env s { s with cache := s.cache.flush }

/-- A run that ends in `s`, with the states it went through. -/
inductive Run (env : Setting) : List System → System → Prop
  | initial : Run env [{ origin := { dedupWindow := env.window } }]
      { origin := { dedupWindow := env.window } }
  | step {run : List System} {s s' : System} (h : Run env run s) (next : Step env s s') :
      Run env (s' :: run) s'

end EdgeKV.Edge
