import EdgeKV.Server.Kv

/-!
The Go client: which node it asks, what it makes of an answer, and the loop in which it asks
again. The answers come from outside; `doRequest` takes them as a function of the attempt and
of the node that is asked.
-/
namespace EdgeKV

/-- A client with its cache of leaders. Nodes are known by their base URLs. -/
structure Client where
  nodes : List String
  nonempty : nodes ≠ []
  retries : Nat := 8
  leaders : Nat → Option String := fun _ => none
  shardOf : String → Option Nat := fun _ => none

namespace Client

open Server (KvRequest PutRequest CachePolicy Reply)

/-- What a successful answer is decoded to. -/
inductive Out
  | version (version : UInt64)
  | entry (value : Bytes) (version : UInt64)
  deriving DecidableEq, Repr

inductive RequestError
  | notFound
  | versionMismatch
  | notCacheable
  | redirect (shard : Nat) (leaderURL : String)
  | other (text : String)
  deriving DecidableEq, Repr

/-- How `do` ends when it does not succeed. -/
inductive DoError
  | notFound
  | versionMismatch
  | notCacheable
  | canceled
  | givingUp
  deriving DecidableEq, Repr

/-- What the loop of `do` does after a request. -/
inductive Next
  | done (result : Except DoError Out)
  | again (target : String)
  deriving Repr

section Requests

/-- `Put` and `CAS`. -/
def put (key value requestId : String) (policy : Option CachePolicy) (expected : Option UInt64) :
    KvRequest where
  key
  method := .edit (.put { requestId, value, cachePolicy := policy }
    ((expected.map fun n => toString n.toNat).getD ""))
  noForward := true

def delete (key requestId : String) : KvRequest where
  key
  method := .edit (.delete requestId)
  noForward := true

def get (key : String) : KvRequest where
  key
  method := .get
  noForward := true

/-- The part of `request` that reads the answer. -/
def request (reply : Reply) : Except RequestError Out :=
  match reply.status, reply.body with
  | 200, .wrote _ version _ => .ok (.version version)
  | 200, .entry response => .ok (.entry response.value response.version)
  | 404, _ => .error .notFound
  | 412, _ => .error .versionMismatch
  | 400, .error kind detail | 403, .error kind detail =>
      if kind = "not_cacheable" ∨ kind = "namespace_not_cacheable" then .error .notCacheable
      else .error (.other ("edgekv: " ++ kind ++ ": " ++ detail))
  | 421, .notLeader shard _ leaderURL => .error (.redirect shard leaderURL)
  | status, _ => .error (.other ("edgekv: " ++ toString status))

end Requests

/-- What a request comes back with: the result, the shard that the headers name, and whether
the caller has canceled by then, or does so while the client waits. -/
structure Heard where
  result : Except RequestError Out
  shard : Option Nat := none
  canceled : Bool := false
  gone : Bool := false
  deriving Repr

section Loop

variable (c : Client)

def pickNode (key : String) : String :=
  ((c.shardOf key).bind c.leaders).getD (c.nodes.head c.nonempty)

def setLeader (key : String) (shard : Nat) (leaderURL : String) : Client :=
  { c with
    shardOf := Function.update c.shardOf key (some shard)
    leaders :=
      Function.update c.leaders shard (if leaderURL ≠ "" then some leaderURL else none) }

def forget (key : String) : Client :=
  match c.shardOf key with
  | some shard => { c with leaders := Function.update c.leaders shard none }
  | none => c

def learn (key : String) (shard : Option Nat) (target : String) : Client :=
  match shard with
  | some shard => c.setLeader key shard target
  | none => c

/-- The node that is asked after attempt `attempt` has failed. -/
def nodeAfter (attempt : Nat) : String :=
  c.nodes.get ⟨attempt % c.nodes.length, Nat.mod_lt _ (List.length_pos_iff.mpr c.nonempty)⟩

/-- The end of the loop's body: the caller may be gone before the wait is over. -/
def backOff (key : String) (attempt : Nat) (gone : Bool) : Client × Next :=
  (c.forget key, if gone then .done (.error .canceled) else .again (c.nodeAfter attempt))

/-- The body of the loop of `do` after `request` has returned. -/
def afterRequest (key : String) (attempt : Nat) (target : String) (heard : Heard) : Client × Next :=
  match heard.result with
  | .ok out => (c.learn key heard.shard target, .done (.ok out))
  | .error (.redirect shard leaderURL) =>
      if leaderURL ≠ "" then (c.setLeader key shard leaderURL, .again leaderURL)
      else (c.setLeader key shard leaderURL).backOff key attempt heard.gone
  | .error .notFound => (c, .done (.error .notFound))
  | .error .versionMismatch => (c, .done (.error .versionMismatch))
  | .error .notCacheable => (c, .done (.error .notCacheable))
  | .error (.other _) =>
      if heard.canceled then (c, .done (.error .canceled)) else c.backOff key attempt heard.gone

/-- The loop of `do` with `left` attempts to go. -/
def attempts (world : Nat → String → Heard) (key : String) :
    (left : Nat) → Client → (attempt : Nat) → (target : String) → Client × Except DoError Out
  | 0, c, _, _ => (c, .error .givingUp)
  | left + 1, c, attempt, target =>
      match c.afterRequest key attempt target (world attempt target) with
      | (c, .done result) => (c, result)
      | (c, .again target) => attempts world key left c (attempt + 1) target

/-- `do` -/
def doRequest (world : Nat → String → Heard) (key : String) : Client × Except DoError Out :=
  attempts world key c.retries c 0 (c.pickNode key)

end Loop

section Leader

/-- What `do` ends with if an answer is final; `none` is for those after which it goes on. -/
def definitive : Except RequestError Out → Option (Except DoError Out)
  | .ok out => some (.ok out)
  | .error .notFound => some (.error .notFound)
  | .error .versionMismatch => some (.error .versionMismatch)
  | .error .notCacheable => some (.error .notCacheable)
  | .error (.redirect _ _) | .error (.other _) => none

variable {world : Nat → String → Heard} {leader key : String} {live : String → Bool} {shard : Nat}
  {answer : Except DoError Out} {c : Client}

/-- While the cluster stays as it is, the leader gives a final answer, the other live nodes point to
it, and requests to the rest fail. -/
structure Steady (world : Nat → String → Heard) (leader : String) (shard : Nat)
    (answer : Except DoError Out) (live : String → Bool) : Prop where
  named : leader ≠ ""
  answers : ∀ attempt, definitive (world attempt leader).result = some answer
  header : ∀ out, answer = .ok out → ∀ attempt, (world attempt leader).shard = some shard
  points : ∀ attempt target, live target = true → target ≠ leader →
    (world attempt target).result = .error (.redirect shard leader)
  fails : ∀ attempt target, live target = false → target ≠ leader →
    (∃ text, (world attempt target).result = .error (.other text)) ∧
      (world attempt target).canceled = false ∧ (world attempt target).gone = false

/-- The request has the leader's answer, and if that is a success, the next one for the key goes to
the leader. -/
def Reached (leader key : String) (answer : Except DoError Out) (r : Client × Except DoError Out) :
    Prop :=
  r.2 = answer ∧ ∀ out, answer = .ok out → r.1.pickNode key = leader

theorem pickNode_setLeader (named : leader ≠ "") :
    (c.setLeader key shard leader).pickNode key = leader := by
  simp [pickNode, setLeader, named]

/-- A final answer ends the loop; only a success is learned from. -/
theorem afterRequest_definitive {attempt : Nat} {target : String} {heard : Heard}
    (final : definitive heard.result = some answer) :
    ∃ c', c.afterRequest key attempt target heard = (c', .done answer) ∧
      ∀ out, answer = .ok out → c' = c.learn key heard.shard target := by
  rw [afterRequest]
  cases result : heard.result with
  | ok out =>
      rw [result] at final
      cases final
      exact ⟨_, rfl, fun _ _ => rfl⟩
  | error err =>
      rw [result] at final
      cases err with
      | notFound | versionMismatch | notCacheable =>
          cases final
          exact ⟨_, rfl, fun out success => by cases success⟩
      | redirect shard leaderURL => cases final
      | other text => cases final

theorem attempts_leader (steady : Steady world leader shard answer live) (left attempt : Nat) :
    Reached leader key answer (attempts world key (left + 1) c attempt leader) := by
  obtain ⟨c', ends, learned⟩ := afterRequest_definitive (steady.answers attempt)
  rw [attempts, ends]
  refine ⟨rfl, fun out success => ?_⟩
  rw [learned out success, steady.header out success attempt]
  exact pickNode_setLeader steady.named

theorem attempts_live (steady : Steady world leader shard answer live) {target : String}
    (alive : live target = true) (left attempt : Nat) :
    Reached leader key answer (attempts world key (left + 2) c attempt target) := by
  by_cases own : target = leader
  · rw [own]
    exact attempts_leader steady _ _
  · rw [attempts]
    simp only [afterRequest, steady.points attempt target alive own, ne_eq, steady.named,
      not_false_eq_true, if_true]
    exact attempts_leader steady _ _

theorem attempts_dead (steady : Steady world leader shard answer live) {target : String}
    (dead : live target = false) (other : target ≠ leader) (left attempt : Nat) :
    attempts world key (left + 1) c attempt target =
      attempts world key left (c.forget key) (attempt + 1) (c.nodeAfter attempt) := by
  obtain ⟨⟨text, result⟩, here, waits⟩ := steady.fails attempt target dead other
  simp only [attempts, afterRequest, result, here, backOff, waits, Bool.false_eq_true, if_false]

theorem nodes_forget : (c.forget key).nodes = c.nodes := by
  rw [forget]
  split <;> rfl

theorem nodeAfter_lt {attempt : Nat} (lt : attempt < c.nodes.length) :
    c.nodeAfter attempt = c.nodes[attempt] := by
  simp [nodeAfter, Nat.mod_eq_of_lt lt]

/-- The nodes are asked one after the other, up to the first that is alive. -/
theorem attempts_reached (steady : Steady world leader shard answer live) {attempt d : Nat}
    (found : attempt + d < c.nodes.length) (alive : live c.nodes[attempt + d] = true)
    (target : String) (left : Nat) :
    Reached leader key answer (attempts world key (left + d + 3) c attempt target) := by
  induction d generalizing c attempt target with
  | zero =>
      by_cases own : target = leader
      · rw [own]
        exact attempts_leader steady _ _
      cases answers : live target with
      | true => exact attempts_live steady answers _ _
      | false =>
          rw [attempts_dead steady answers own, nodeAfter_lt (show attempt < _ from found)]
          exact attempts_live steady alive _ _
  | succ d ih =>
      by_cases own : target = leader
      · rw [own]
        exact attempts_leader steady _ _
      cases answers : live target with
      | true => exact attempts_live steady answers _ _
      | false =>
          rw [attempts_dead steady answers own]
          have next : attempt + 1 + d = attempt + (d + 1) := by omega
          refine ih (by rw [nodes_forget, next]; exact found) ?_ _
          simpa only [nodes_forget, next] using alive

/-- The nodes before the first live one are all dead. -/
theorem findIdx_le_countP {α : Type} (p : α → Bool) (l : List α) :
    l.findIdx p ≤ l.countP fun x => !p x := by
  induction l with
  | nil => exact Nat.zero_le _
  | cons x l ih =>
      cases here : p x with
      | true => simp [List.findIdx_cons, here]
      | false => simpa [List.findIdx_cons, here] using ih

end Leader
end Client
end EdgeKV
