import EdgeKV.Client.Consistent
import EdgeKV.Node.MultiRaft

/-!
Linearizability as the callers of the client see it. Whatever requests are lost, repeated,
redirected or forwarded, an operation is carried out by operations of the shards that are made
for it alone; a write by one, a read by the one whose answer is handed on.
-/
namespace EdgeKV

open Linearizability (Event Trace Linearizable Attempted linearizable_of_attempts pairwise_of_prefix)
open Server (KvRequest)

variable {ID : Type} {d : Deployment ID} {sys sys' : Service ID}

section Servers

theorem mem_shardHistory {m : MultiRaft ID} {s : Nat} {op : OpId} {request : Request}
    (h : .invoke op request ∈ m.shardHistory s) : .invoke (s, op) request ∈ m.history := by
  obtain ⟨e, there, same⟩ := List.mem_map.mp h
  obtain ⟨before, own⟩ := List.mem_filter.mp there
  cases e with
  | invoke op' request' =>
      cases same
      cases of_decide_eq_true own
      exact before
  | respond op' out => cases same

/-- All that was asked of a shard under one ID is the same. -/
theorem asked_once (h : sys.Consistent d) {s k : Nat} {op : Operation} {request r : Request}
    (here : sys.ops k = some op) (means : op.meaning d = some r)
    (asked : .invoke (.write op.requestId) request ∈ sys.servers.shardHistory s) : request = r := by
  have inner := mem_shardHistory asked
  rw [← h.inner, Linearizability.Trace.mem_inner] at inner
  obtain ⟨before, after, split⟩ := List.append_of_mem inner
  obtain ⟨k', ⟨op', edit, here', -, named, -⟩, outer⟩ :=
    h.admitted before (.inr (.invoke (s, .write op.requestId) request)) ⟨after, by simp [split]⟩
  obtain rfl := h.tidy.distinct k' k op' op here' here named
  cases here.symm.trans here'
  obtain ⟨first, rest, split'⟩ := List.append_of_mem outer
  obtain ⟨⟨op₁, here₁, means₁⟩, -⟩ := h.admitted first (.inl (.invoke k' request))
    ⟨rest ++ .inr (.invoke (s, .write op.requestId) request) :: after, by simp [split, split']⟩
  cases here.symm.trans here₁
  exact Option.some.inj (means₁.symm.trans means)

theorem mem_answered {history : List ClientEvent} {name name' : OpId} {out : Response}
    {request : Request} (h : .invoke name request ∈ history ++ [.respond name' out]) :
    .invoke name request ∈ history := by
  cases List.mem_append.mp h with
  | inl old => exact old
  | inr new => cases List.mem_singleton.mp new

theorem mem_write {c : Cluster ID} {n : ID} {cmd : Command} {w : Write} {now : Int} {name : OpId}
    {request : Request} (h : .invoke name request ∈ (c.write n cmd w now).history) :
    .invoke name request ∈ c.history ∨ request = .write w := by
  rw [Cluster.write, Cluster.invoke] at h
  split at h
  · exact Or.inl h
  · cases List.mem_append.mp h with
    | inl old => exact Or.inl old
    | inr new =>
        cases List.mem_singleton.mp new
        exact Or.inr rfl

theorem key_write {cmd : Command} {w : Write} (h : cmd.write = some w) : w.key = cmd.key := by
  rw [Command.write] at h
  split at h
  · cases h
    rfl
  · cases h
    rfl
  · cases h

variable [DecidableEq ID] {cfg : Config ID} {codecs : Codecs} {window : Nat} {T : Transport}

/-- A step of a shard in which no call begins for a key of another shard. -/
theorem shard_moves (routed : Routed d.numShards sys.servers) {s : Nat} {c : Cluster ID}
    (hosted : s < d.numShards) (step : Cluster.Step cfg codecs window T (sys.servers.cluster s) c)
    (owned : ∀ op request, .invoke op request ∈ c.history →
      .invoke op request ∈ sys.servers.shardHistory s ∨ forKey request.key d.numShards = s) :
    MultiRaft.Step cfg codecs window T d.numShards sys.servers (sys.servers.setCluster s c) := by
  refine .shard hosted step fun op request asked => ?_
  cases owned op request asked with
  | inl old => exact routed.owned (s, op) request (mem_shardHistory old)
  | inr new => exact new

theorem step_servers (pos : 0 < d.numShards) (fits : d.numShards < 2 ^ 32) (h : sys.Consistent d)
    (routed : Routed d.numShards sys.servers)
    (step : Service.Step cfg codecs window T d sys sys') :
    sys'.servers = sys.servers ∨
      MultiRaft.Step cfg codecs window T d.numShards sys.servers sys'.servers := by
  cases step with
  | start | send | giveUp | refuse | relay | hopLost => exact Or.inl rfl
  | lost | receive =>
      refine Or.inl ?_
      rw [Service.conclude]
      split <;> rfl
  | @write e s x op edit cmd w now exchange phase method here command means shard =>
      have makes := makes_of_command h exchange here method command means
      subst shard
      refine Or.inr (shard_moves routed (forKey_lt pos fits _) (.write means ?_ ?_) ?_)
      · rw [makes.id]
        exact (h.tidy.known _ _ here).2.1
      · intro request asked
        rw [makes.id] at asked
        exact asked_once h here makes.means asked
      · intro name request asked
        refine (mem_write asked).imp (fun old => old) fun new => ?_
        rw [new]
        exact congrArg (forKey · d.numShards) (key_write means)
  | @get e s x op exchange phase method here shard =>
      subst shard
      refine Or.inr (shard_moves routed (forKey_lt pos fits _) .get fun name request asked => ?_)
      cases List.mem_append.mp asked with
      | inl old => exact Or.inl old
      | inr new =>
          cases List.mem_singleton.mp new
          exact Or.inr rfl
  | wrote hosted exchange phase call told own decoded =>
      exact Or.inr (shard_moves routed hosted (.wrote call told own decoded) fun name request asked =>
        Or.inl (mem_answered asked))
  | got hosted exchange phase call read =>
      subst read
      exact Or.inr (shard_moves routed hosted (.got call) fun name request asked =>
        Or.inl (mem_answered asked))
  | failed hosted | forward hosted =>
      exact Or.inr (shard_moves routed hosted .giveUp fun op request asked => Or.inl asked)
  | serve hosted step silent calls =>
      refine Or.inr (shard_moves routed hosted step fun op request asked => Or.inl ?_)
      rw [silent] at asked
      exact asked
  | crash restarts => exact Or.inr (.crash restarts)

end Servers

section Runs

variable {codecs : Codecs} {window : Nat} {clients : Nat → Client} {run : List (Service ID)}

theorem initial_consistent : (Service.initial codecs window clients : Service ID).Consistent d := by
  refine ⟨rfl, ⟨fun k op here => ?_, fun k k' op op' here => ?_, fun k op x here => ?_,
    fun k op src here => ?_⟩, fun k op r here => ?_, fun k op here => ?_, fun e x there => ?_,
    fun before e there => ?_⟩
  · cases here
  · cases here
  · cases here
  · cases here
  · cases here
  · cases here
  · cases there
  · exact absurd (List.prefix_nil.mp there) (by simp)

variable [DecidableEq ID] {cfg : Config ID} {T : Transport}

/-- A run of the whole is a run of the shards. -/
theorem run_servers (pos : 0 < d.numShards) (fits : d.numShards < 2 ^ 32)
    (h : Service.Run cfg codecs window T d clients run sys) :
    sys.Consistent d ∧ ∃ run', MultiRaft.Run cfg codecs window T d.numShards run' sys.servers ∧
      ∀ m ∈ run', m ∈ run.map Service.servers := by
  induction h with
  | initial => exact ⟨initial_consistent, _, .initial, fun m hm => hm⟩
  | @step run sys sys' _ next ih =>
      obtain ⟨consistent, run', inner, among⟩ := ih
      refine ⟨step_consistent consistent next, ?_⟩
      have kept (m : MultiRaft ID) (hm : m ∈ run') : m ∈ (sys' :: run).map Service.servers :=
        List.mem_cons_of_mem _ (among m hm)
      cases step_servers pos fits consistent (run_routed inner) next with
      | inl same =>
          rw [same]
          exact ⟨run', inner, kept⟩
      | inr moves =>
          exact ⟨_, inner.step moves, List.forall_mem_cons.mpr ⟨List.mem_cons_self, kept⟩⟩

end Runs

section Fit

theorem attempt_unique (h : sys.Consistent d) {k k' : Nat} {x : Nat × OpId}
    (made : sys.Attempt d k x) (made' : sys.Attempt d k' x) : k = k' := by
  obtain ⟨s, name⟩ := x
  cases name with
  | write id =>
      obtain ⟨op, -, here, -, named, -⟩ := made
      obtain ⟨op', -, here', -, named', -⟩ := made'
      exact h.tidy.distinct k k' op op' here here' (named.trans named'.symm)
  | get i =>
      obtain ⟨op, here, -, reads⟩ := made
      obtain ⟨op', here', -, reads'⟩ := made'
      exact ((h.tidy.reads k op (s, i) here reads).2 k' op' here' reads').symm

/-- The operations of the shards that answers may tell of: all writes, and the reads whose answer
was handed on. -/
def Service.Answers (d : Deployment ID) (sys : Service ID) (x : Nat × OpId) : Prop :=
  (∃ k, sys.Attempt d k x) ∧
    ((∃ id, x.2 = .write id) ∨
      ∃ k a op, .inl (.respond k a) ∈ sys.trace ∧ sys.ops k = some op ∧ op.source = some x)

theorem admitted_mem (h : sys.Consistent d) {e : Event Nat Request Answer ⊕ ShardEvent}
    (there : e ∈ sys.trace) : ∃ before, before ++ [e] <+: sys.trace ∧ sys.Admits d before e := by
  obtain ⟨before, after, split⟩ := List.append_of_mem there
  have pre : before ++ [e] <+: sys.trace := ⟨after, by simp [split]⟩
  exact ⟨before, pre, h.admitted before e pre⟩

/-- An operation whose answer comes from `x` is the one that `x` was made for. -/
theorem source_attempt (h : sys.Consistent d) {k : Nat} {a : Answer} {op : Operation}
    {x : Nat × OpId} (told : .inl (.respond k a) ∈ sys.trace) (here : sys.ops k = some op)
    (source : op.source = some x) : sys.Attempt d k x := by
  obtain ⟨-, -, op', src, out, here', source', made, -⟩ := admitted_mem h told
  cases here.symm.trans here'
  cases source.symm.trans source'
  exact made

theorem answers_single (h : sys.Consistent d) {k : Nat} {x y : Nat × OpId} (hx : sys.Answers d x)
    (hy : sys.Answers d y) (made : sys.Attempt d k x) (made' : sys.Attempt d k y) : x = y := by
  obtain ⟨s, name⟩ := x
  obtain ⟨s', name'⟩ := y
  cases name with
  | write id =>
      obtain ⟨op, edit, here, method, named, shard⟩ := made
      cases name' with
      | write id' =>
          obtain ⟨op', edit', here', -, named', shard'⟩ := made'
          cases here.symm.trans here'
          rw [shard, shard', ← named, ← named']
      | get i =>
          obtain ⟨op', here', method', -⟩ := made'
          cases here.symm.trans here'
          cases method.symm.trans method'
  | get i =>
      obtain ⟨op, here, method, reads⟩ := made
      cases name' with
      | write id' =>
          obtain ⟨op', edit, here', method', -⟩ := made'
          cases here.symm.trans here'
          cases method.symm.trans method'
      | get i' =>
          have handed {z : Nat × OpId} {j : Nat} (own : z.2 = .get j) (hz : sys.Answers d z)
              (madeBy : sys.Attempt d k z) : op.source = some z := by
            obtain ⟨-, ⟨id, no⟩ | ⟨k', a, op', told, there, source⟩⟩ := hz
            · cases own.symm.trans no
            · obtain rfl := attempt_unique h (source_attempt h told there source) madeBy
              cases here.symm.trans there
              exact source
          have first := handed rfl hx ⟨op, here, method, reads⟩
          exact Option.some.inj (first.symm.trans (handed rfl hy made'))

/-- How the operations of callers and shards fit together. -/
theorem consistent_attempted (h : sys.Consistent d) :
    ∃ owner, Attempted kvSpec Answer.ofResponse sys.trace owner (sys.Answers d) := by
  have owned (x : Nat × OpId) : ∃ k, (∃ k', sys.Attempt d k' x) → sys.Attempt d k x := by
    by_cases made : ∃ k', sys.Attempt d k' x
    · obtain ⟨k, made⟩ := made
      exact ⟨k, fun _ => made⟩
    · exact ⟨0, fun made' => absurd made' made⟩
  choose owner owns using owned
  have own {k : Nat} {x : Nat × OpId} (made : sys.Attempt d k x) : owner x = k :=
    attempt_unique h (owns x ⟨k, made⟩) made
  refine ⟨owner, fun before x r there => ?_, pairwise_of_prefix fun before e there e₀ early => ?_,
    fun before k a there => ?_, fun x y hx hy same => ?_, fun x r there silent => ?_⟩
  · obtain ⟨k, made, asked⟩ := h.admitted before _ there
    rw [own made]
    exact asked
  · intro x r r' eq eq'
    subst eq eq'
    obtain ⟨-, others⟩ := h.admitted before _ there
    obtain ⟨k', differ, made⟩ := others x r early
    exact differ (own made).symm
  · obtain ⟨op, src, out, here, source, made, responded, seen⟩ := h.admitted before _ there
    refine ⟨src, out, own made, ⟨⟨k, made⟩, Or.inr ⟨k, a, op, ?_, here, source⟩⟩, responded, seen⟩
    exact there.subset (List.mem_append_right _ (List.mem_singleton.mpr rfl))
  · exact answers_single h hx hy (owns x hx.1) (same ▸ owns y hy.1)
  · obtain ⟨before, pre, k, made, asked⟩ := admitted_mem h there
    obtain ⟨s, name⟩ := x
    cases name with
    | write id => exact absurd ⟨⟨k, made⟩, Or.inl ⟨id, rfl⟩⟩ silent
    | get i =>
        obtain ⟨op, here, method, -⟩ := made
        obtain ⟨-, -, ⟨op', here', means⟩, -⟩ :=
          admitted_mem h (pre.subset (List.mem_append_left _ asked))
        cases here.symm.trans here'
        rw [Operation.meaning, method] at means
        cases means
        exact fun st => rfl

end Fit

section Theorem

variable [DecidableEq ID]

end Theorem

section Samples

/-- One shard on three nodes, of which clients know the first. -/
def soloDeployment : Deployment Nat where
  gateway := Server.new
    { nodeId := "", peerHTTP := fun _ => "", cacheableNamespaces := [], invalidations := false
      shardFor := fun _ => 0 }
  numShards := 1
  name := fun _ => ""
  nodeAt := fun url => if url = "http://n0" then some 0 else none

def soloClient : Client where
  nodes := ["http://n0"]
  nonempty := by decide

/-- A put that waits for its first request. -/
def soloPut : Operation where
  client := 0
  request := Client.put "a" "\u0007" "r" none none
  requestId := "r"
  state := .waiting 0 "http://n0" 0

/-- The system while the put is under way, after a run in which no machine has gone beyond two
entries. -/
structure Underway (c : Cluster Nat) (phase : Phase)
    (trace : Trace Nat (Nat × OpId) Request Answer Response) (sys : Service Nat) : Prop where
  ran : ∃ run, Service.Run trio (shortCodecs firstPut) 10 ⟨false⟩ soloDeployment (fun _ => soloClient)
    run sys ∧ sys ∈ run ∧ ∀ x ∈ run, ∀ n, ((x.servers.cluster 0).group.procs n).position ≤ 2
  cluster : sys.servers.cluster 0 = c
  client : sys.clients 0 = soloClient
  op : sys.ops 0 = some soloPut
  exchange : sys.exchanges 0 = some { op := 0, node := 0, request := soloPut.request, phase }
  trace : sys.trace = trace

variable {c c' : Cluster Nat} {phase : Phase}
  {trace : Trace Nat (Nat × OpId) Request Answer Response} {sys : Service Nat}

theorem underway_position (h : Underway c phase trace sys) (n : Nat) :
    (c.group.procs n).position ≤ 2 := by
  obtain ⟨run, -, last, small⟩ := h.ran
  exact h.cluster ▸ small sys last n

/-- A step of the system that leaves the operation as it is. -/
theorem underway_step {phase' : Phase} {trace' : Trace Nat (Nat × OpId) Request Answer Response}
    {sys' : Service Nat} (h : Underway c phase trace sys)
    (step : Service.Step trio (shortCodecs firstPut) 10 ⟨false⟩ soloDeployment sys sys')
    (cluster : sys'.servers.cluster 0 = c') (small : ∀ n, (c'.group.procs n).position ≤ 2)
    (client : sys'.clients = sys.clients) (op : sys'.ops = sys.ops)
    (exchange : sys'.exchanges 0 =
      some { op := 0, node := 0, request := soloPut.request, phase := phase' })
    (told : sys'.trace = trace') : Underway c' phase' trace' sys' := by
  obtain ⟨run, before, last, smalls⟩ := h.ran
  refine ⟨⟨_, before.step step, List.mem_cons_self .., fun x hx n => ?_⟩, cluster,
    client ▸ h.client, op ▸ h.op, exchange, told⟩
  cases List.mem_cons.mp hx with
  | inl new =>
      subst new
      rw [cluster]
      exact small n
  | inr old => exact smalls x old n

theorem underway_serve (h : Underway c phase trace sys)
    (step : Cluster.Step trio (shortCodecs firstPut) 10 ⟨false⟩ c c') (silent : c'.history = c.history)
    (calls : ∀ i call, c'.calls i = some call → ∃ call₀, c.calls i = some call₀ ∧
      call.progress.op i = call₀.progress.op i)
    (small : ∀ n, (c'.group.procs n).position ≤ 2) : ∃ sys', Underway c' phase trace sys' := by
  have cluster := h.cluster
  subst cluster
  obtain ⟨net, history⟩ := step_grows step
  have none : c'.history.drop (sys.servers.shardHistory 0).length = [] := by
    rw [silent]
    exact List.drop_length
  exact ⟨_, underway_step h (.serve (by decide) step silent calls) (cluster_setCluster net history)
    small rfl rfl h.exchange (by simp [Service.setShard, none, h.trace])⟩

theorem underway_play {actions : List (Nat × Action Nat)} {g' : Group Nat Store}
    (h : Underway c phase trace sys)
    (played : Group.playWithin trio (Store.machine (shortCodecs firstPut) 10) ⟨false⟩ 2 c.group
      actions = some g') : ∃ sys', Underway { c with group := g' } phase trace sys' := by
  induction actions generalizing c sys with
  | nil =>
      cases played
      exact ⟨sys, h⟩
  | cons action rest ih =>
      obtain ⟨n, act⟩ := action
      obtain ⟨mid, first, played⟩ := Option.bind_eq_some_iff.mp played
      split at played
      next able =>
        have performs : Group.Performs trio (Store.machine (shortCodecs firstPut) 10) ⟨false⟩ n act
            c.group mid := Group.act_enabled first
        obtain ⟨sys₁, moved⟩ := underway_serve h (.node able.1 performs) rfl
          (fun i call there => ⟨call, there, rfl⟩) fun m => by
            by_cases own : m = n
            · rw [own]
              exact able.2
            · obtain ⟨out, p, sent, s, -, -, -, eq⟩ := performs
              simp only [eq, Function.update_of_ne own]
              exact underway_position h m
        exact ih (c := { c with group := mid }) moved played
      · cases played

/-- What the put asks for. -/
def soloWrite : Write := ⟨"a", .put ⟨[7], false, 0⟩, none⟩

theorem soloPut_command :
    soloDeployment.gateway.command soloPut.request.key soloPut.request.headerId "r"
      (.put { requestId := "r", value := "\u0007" } "") = .ok firstPut := by
  decide

theorem underway_start :
    ∃ sys, Underway (Cluster.initial (shortCodecs firstPut) 10) .arrived
      [.inl (.invoke 0 (.write soloWrite))] sys := by
  have carries : soloPut.request.Carries "r" := by
    refine ⟨fun e method => ?_, Or.inl rfl⟩
    cases method
    exact Or.inr rfl
  have named : soloPut.request.Named := by
    intro e method
    cases method
    exact Or.inl (by decide)
  have started := Service.Run.initial.step (@Service.Step.start Nat _ trio (shortCodecs firstPut) 10
    ⟨false⟩ soloDeployment (Service.initial (shortCodecs firstPut) 10 fun _ => soloClient) 0
    soloPut.request "r" (fun k op here => by cases here) (by decide) carries (Or.inl named))
  have sent := started.step (@Service.Step.send Nat _ trio (shortCodecs firstPut) 10 ⟨false⟩
    soloDeployment _ 0 0 _ "http://n0" rfl rfl (by decide))
  refine ⟨_, ⟨_, sent, List.mem_cons_self .., fun x hx n => ?_⟩, rfl, rfl, rfl, rfl, rfl⟩
  simp only [List.mem_cons, List.not_mem_nil, or_false] at hx
  obtain rfl | rfl | rfl := hx <;> exact Nat.zero_le _

theorem exchanges_setExchange (sys : Service Nat) (e : Nat) (x : HttpExchange Nat) :
    (sys.setExchange e x).exchanges e = some x := Function.update_self ..

theorem group_write (c : Cluster Nat) (n : Nat) (cmd : Command) (w : Write) (now : Int) :
    (c.write n cmd w now).group = c.group := by
  rw [Cluster.write, Cluster.invoke]
  split <;> rfl

/-- Node 0 takes the request up. -/
theorem underway_write {g : Group Nat Store}
    (h : Underway { (Cluster.initial (shortCodecs firstPut) 10 : Cluster Nat) with group := g }
      .arrived trace sys) :
    ∃ sys', Underway (.write { (Cluster.initial (shortCodecs firstPut) 10) with group := g } 0
      firstPut soloWrite 0) (.calling 0 0 "r")
      (trace ++ [.inr (.invoke (0, .write "r") (.write soloWrite))]) sys' := by
  have small := underway_position h
  have writes := @Service.Step.write Nat _ trio (shortCodecs firstPut) 10 ⟨false⟩ soloDeployment sys 0
    0 _ _ _ _ soloWrite 0 h.exchange rfl rfl h.op soloPut_command rfl rfl
  have cluster := h.cluster
  have moved : Cluster.Step trio (shortCodecs firstPut) 10 ⟨false⟩ (sys.servers.cluster 0)
      (.write (sys.servers.cluster 0) 0 firstPut soloWrite 0) :=
    .write rfl (by decide) fun request asked => by
      rw [cluster] at asked
      cases asked
  obtain ⟨net, history⟩ := step_grows moved
  rw [← cluster] at small ⊢
  refine ⟨_, underway_step h writes (cluster_setCluster net history) (fun n => ?_) rfl rfl ?_ ?_⟩
  · rw [group_write]
    exact small n
  · have first : sys.servers.nextId 0 = 0 := congrArg Cluster.nextId cluster
    rw [first]
    exact exchanges_setExchange _ _ _
  · have new : (Cluster.write (sys.servers.cluster 0) 0 firstPut soloWrite 0).history.drop
        (sys.servers.shardHistory 0).length = [.invoke (.write "r") (.write soloWrite)] := by
      have empty : sys.servers.shardHistory 0 = [] := congrArg Cluster.history cluster
      rw [cluster, empty]
      rfl
    show sys.trace ++ (List.drop _ _).map _ = _
    rw [new, h.trace]
    rfl

/-- Node 0 learns the result and answers. -/
theorem underway_wrote {q : Proposal} (h : Underway c (.calling 0 0 "r") trace sys)
    (call : c.calls 0 = some ⟨0, .proposed firstPut⟩)
    (told : (q, .ok [0]) ∈ (c.group.procs 0).raft.done) (own : q.id = 0) :
    ∃ sys', Underway ((c.setCall 0 none).record (.respond (.write "r") (.wrote { version := 1 })))
      (.answered ((soloDeployment.config 0).wroteReply soloPut.request firstPut (.failed "")
        { version := 1 }) (some (0, .write "r")))
      (trace ++ [.inr (.respond (0, .write "r") (.wrote { version := 1 }))]) sys' := by
  have small := underway_position h
  have cluster := h.cluster
  subst cluster
  have writes := @Service.Step.wrote Nat _ trio (shortCodecs firstPut) 10 ⟨false⟩ soloDeployment sys 0
    0 0 _ "r" firstPut q [0] { version := 1 } (.failed "") (by decide) h.exchange rfl call told own rfl
  obtain ⟨net, history⟩ := step_grows (@Cluster.Step.wrote Nat _ trio (shortCodecs firstPut) 10
    ⟨false⟩ _ 0 0 firstPut q [0] { version := 1 } call told own rfl)
  refine ⟨_, underway_step h writes (cluster_setCluster net history) small rfl rfl
    (exchanges_setExchange _ _ _) ?_⟩
  show sys.trace ++ (List.drop _ (sys.servers.shardHistory 0 ++ _)).map _ = _
  rw [List.drop_left, h.trace]
  rfl

end Samples
end EdgeKV
