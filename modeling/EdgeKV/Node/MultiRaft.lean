import EdgeKV.Node.Linearizable
import EdgeKV.Node.Shards

/-!
Linearizability of all shards together. Each shard is a run of its own, whatever the others
do, and no operation needs more than one of them; so the history of all clients of all shards
is that of one store.
-/
namespace EdgeKV

open Linearizability (Event Point Precedes Linearizable Parted linearizable_of_parts
  linearizable_relabel precedes_relabel precedes_filter)

variable {ID : Type} {codecs : Codecs} {window : Nat}

section Shard

/-- What backs a run of one shard makes its history linearizable. -/
theorem backed_linearizable [DecidableEq ID] {cfg : Config ID} {run : List (Cluster ID)}
    {c : Cluster ID} {a : Abs ID} {stamped : Stamped ID}
    (backed : Backed cfg codecs window (run.map Cluster.group) c a stamped)
    (within : Cluster.WithinWindow codecs window run) : Linearizable kvSpec c.history := by
  obtain ⟨C, log⟩ := log_exists backed
  obtain ⟨ground, book, clients⟩ := backed
  obtain ⟨t, committed⟩ := log.committed
  have meant (e : Entry) (he : e ∈ C) (cmd : Command) (command : e.command codecs = some cmd) :
      Meant (stamped.map Prod.fst) cmd := by
    rw [clients.history]
    exact committed_meant clients committed he command
  have placeable (x : ClientEvent × Abs ID) :
      ∃ place : Nat × Point OpId Request Response, x ∈ stamped → answersGet x.1 = true →
        ReadAt codecs window C stamped x place.1 place.2 := by
    by_cases get : x ∈ stamped ∧ answersGet x.1 = true
    · obtain ⟨k, p, reads⟩ := placed_read get.2 (log.placed x get.1)
      exact ⟨(k, p), fun _ _ => reads⟩
    · exact ⟨(0, ⟨.get 0, .get "", .got none⟩), fun hx answers => absurd ⟨hx, answers⟩ get⟩
  choose place reads using placeable
  have quiet := clients.quiet
  rw [← clients.history] at quiet ⊢
  exact places_linearizable
    { orderly := log_orderly ground clients within log
      meant
      ordered := clients.ordered
      quiet
      placed := log.placed
      reads }

end Shard

section Order

/-- Operations are invoked before they have calls and before they are answered. -/
structure Sequenced (c : Cluster ID) : Prop where
  answered : ∀ op out, .respond op out ∈ c.history → ∃ request, .invoke op request ∈ c.history
  numbered : ∀ i request, .invoke (.get i) request ∈ c.history → i < c.nextId
  calls : ∀ i call, c.calls i = some call →
    i < c.nextId ∧ ∃ request, .invoke (call.progress.op i) request ∈ c.history
  forward : c.history.Pairwise fun x y => ∀ op out request, x = .respond op out →
    y ≠ .invoke op request

variable {c c' : Cluster ID}

theorem sequenced_same (h : Sequenced c) (history : c'.history = c.history)
    (le : c.nextId ≤ c'.nextId)
    (calls : ∀ i call, c'.calls i = some call →
      ∃ call₀, c.calls i = some call₀ ∧ call.progress.op i = call₀.progress.op i) :
    Sequenced c' := by
  refine ⟨?_, ?_, fun i call there => ?_, ?_⟩
  · rw [history]
    exact h.answered
  · rw [history]
    exact fun i request asked => (h.numbered i request asked).trans_le le
  · obtain ⟨call₀, before, same⟩ := calls i call there
    obtain ⟨bound, asked⟩ := h.calls i call₀ before
    rw [history, same]
    exact ⟨bound.trans_le le, asked⟩
  · rw [history]
    exact h.forward

/-- A counter that moves on. -/
theorem sequenced_take (h : Sequenced c) : Sequenced c.take :=
  sequenced_same h rfl (Nat.le_succ _) fun _ call there => ⟨call, there, rfl⟩

/-- A call of an operation that has been invoked. -/
theorem sequenced_call (h : Sequenced c) {i : Nat} {call : NodeCall ID} {request : Request}
    (bound : i < c.nextId) (invoked : .invoke (call.progress.op i) request ∈ c.history) :
    Sequenced (c.setCall i (some call)) := by
  refine ⟨h.answered, h.numbered, fun j call' there => ?_, h.forward⟩
  by_cases own : j = i
  · subst own
    simp only [Cluster.setCall, Function.update_self] at there
    cases there
    exact ⟨bound, request, invoked⟩
  · simp only [Cluster.setCall, Function.update_of_ne own] at there
    exact h.calls j call' there

/-- A call that moves on stays an attempt of its operation. -/
theorem sequenced_setCall (h : Sequenced c) {i : Nat} {call call' : NodeCall ID}
    (there : c.calls i = some call) (same : call'.progress.op i = call.progress.op i) :
    Sequenced (c.setCall i (some call')) := by
  obtain ⟨bound, request, invoked⟩ := h.calls i call there
  exact sequenced_call h bound (same ▸ invoked)

theorem sequenced_drop (h : Sequenced c) (i : Nat) : Sequenced (c.setCall i none) := by
  refine sequenced_same h rfl (Nat.le_refl _) fun j call there => ?_
  by_cases own : j = i
  · subst own
    simp [Cluster.setCall] at there
  · simp only [Cluster.setCall, Function.update_of_ne own] at there
    exact ⟨call, there, rfl⟩

/-- A new event of an operation that was invoked before is an answer. -/
theorem sequenced_respond (h : Sequenced c) {op : OpId} {request : Request}
    (invoked : .invoke op request ∈ c.history) (out : Response) :
    Sequenced (c.record (.respond op out)) := by
  refine ⟨fun op' out' told => ?_, fun i request' asked => ?_, fun i call there => ?_, ?_⟩
  · cases List.mem_append.mp told with
    | inl old =>
        obtain ⟨request', asked⟩ := h.answered op' out' old
        exact ⟨request', List.mem_append_left _ asked⟩
    | inr new =>
        cases List.mem_singleton.mp new
        exact ⟨request, List.mem_append_left _ invoked⟩
  · cases List.mem_append.mp asked with
    | inl old => exact h.numbered i request' old
    | inr new => cases List.mem_singleton.mp new
  · obtain ⟨bound, request', asked⟩ := h.calls i call there
    exact ⟨bound, request', List.mem_append_left _ asked⟩
  · refine List.pairwise_append.mpr ⟨h.forward, List.pairwise_singleton _ _, fun x _ y hy => ?_⟩
    rw [List.mem_singleton.mp hy]
    exact fun op' out' request' _ eq => by cases eq

/-- An operation is invoked once, before anything else happens to it. -/
theorem sequenced_invoke (h : Sequenced c) {op : OpId} {request : Request}
    (new : ∀ request', .invoke op request' ∉ c.history)
    (bound : ∀ i, op = .get i → i < c.nextId) : Sequenced (c.record (.invoke op request)) := by
  refine ⟨fun op' out told => ?_, fun i request' asked => ?_, fun i call there => ?_, ?_⟩
  · cases List.mem_append.mp told with
    | inl old =>
        obtain ⟨request', asked⟩ := h.answered op' out old
        exact ⟨request', List.mem_append_left _ asked⟩
    | inr new => cases List.mem_singleton.mp new
  · cases List.mem_append.mp asked with
    | inl old => exact h.numbered i request' old
    | inr own =>
        cases List.mem_singleton.mp own
        exact bound i rfl
  · obtain ⟨le, request', asked⟩ := h.calls i call there
    exact ⟨le, request', List.mem_append_left _ asked⟩
  · refine List.pairwise_append.mpr ⟨h.forward, List.pairwise_singleton _ _, fun x hx y hy => ?_⟩
    rw [List.mem_singleton.mp hy]
    intro op' out request' eq same
    cases same
    subst eq
    obtain ⟨request', asked⟩ := h.answered op out hx
    exact new request' asked

/-- What a step does to the counter and the history comes after what is there. -/
theorem step_grows [DecidableEq ID] {cfg : Config ID} {T : Transport}
    (h : Cluster.Step cfg codecs window T c c') :
    c.group.net <+: c'.group.net ∧ c.history <+: c'.history := by
  cases h with
  | node _ performs | propose _ performs | ask _ performs =>
      obtain ⟨out, p, sent, s, -, -, -, rfl⟩ := performs
      exact ⟨List.prefix_append _ _, List.prefix_rfl⟩
  | crash crashes =>
      obtain ⟨ops, s, p, -, -, -, rfl⟩ := crashes
      exact ⟨List.prefix_rfl, List.prefix_rfl⟩
  | write means named own =>
      rw [Cluster.invoke]
      split
      · exact ⟨List.prefix_rfl, List.prefix_rfl⟩
      · exact ⟨List.prefix_rfl, List.prefix_append _ _⟩
  | wrote | get | got => exact ⟨List.prefix_rfl, List.prefix_append _ _⟩
  | notReady | confirm | giveUp => exact ⟨List.prefix_rfl, List.prefix_rfl⟩

theorem sequenced_step [DecidableEq ID] {cfg : Config ID} {T : Transport} (h : Sequenced c)
    (step : Cluster.Step cfg codecs window T c c') : Sequenced c' := by
  cases step with
  | node => exact sequenced_same h rfl (Nat.le_refl _) fun i call there => ⟨call, there, rfl⟩
  | crash =>
      refine sequenced_same h rfl (Nat.le_refl _) fun i call there => ⟨call, ?_, rfl⟩
      exact (Option.filter_eq_some_iff.mp there).1
  | @write n cmd w now means named own =>
      rw [Cluster.invoke]
      split
      next old => exact sequenced_call (sequenced_take h) (Nat.lt_succ_self _) old
      next new =>
        have invoked : Sequenced (c.take.record (.invoke (.write cmd.requestId) (.write w))) :=
          sequenced_invoke (sequenced_take h)
            (fun request there => new (own request there ▸ there)) fun i eq => by cases eq
        exact sequenced_call invoked (Nat.lt_succ_self _)
          (List.mem_append_right _ (List.mem_singleton.mpr rfl))
  | @propose i n cmd g' call =>
      have moved : Sequenced (c.setCall i (some ⟨n, .proposed cmd⟩)) := sequenced_setCall h call rfl
      exact sequenced_same moved rfl (Nat.le_refl _) fun j call there => ⟨call, there, rfl⟩
  | wrote call =>
      obtain ⟨-, request, invoked⟩ := h.calls _ _ call
      exact sequenced_respond (sequenced_drop h _) invoked _
  | @get n key =>
      have invoked : Sequenced (c.take.record (.invoke (.get c.nextId) (.get key))) := by
        refine sequenced_invoke (sequenced_take h) (fun request there => ?_) fun i eq => ?_
        · exact absurd (h.numbered _ _ there) (Nat.lt_irrefl _)
        · cases eq
          exact Nat.lt_succ_self _
      exact sequenced_call invoked (Nat.lt_succ_self _)
        (List.mem_append_right _ (List.mem_singleton.mpr rfl))
  | @ask i n key g' call =>
      have moved : Sequenced (c.setCall i (some ⟨n, .asked key c.nextId⟩)) :=
        sequenced_setCall h call rfl
      exact sequenced_same (sequenced_take moved) rfl (Nat.le_refl _) fun j call there =>
        ⟨call, there, rfl⟩
  | notReady call | confirm call => exact sequenced_setCall h call rfl
  | got call =>
      obtain ⟨-, request, invoked⟩ := h.calls _ _ call
      exact sequenced_respond (sequenced_drop h _) invoked _
  | giveUp => exact sequenced_drop h _

theorem run_sequenced [DecidableEq ID] {cfg : Config ID} {T : Transport} {run : List (Cluster ID)}
    (h : Cluster.Run cfg codecs window T run c) : Sequenced c := by
  induction h with
  | initial =>
      refine ⟨fun op out told => ?_, fun i request asked => ?_, fun i call there => ?_, .nil⟩
      · cases told
      · cases asked
      · cases there
  | step _ next ih => exact sequenced_step ih next

theorem sequenced_irrefl (h : Sequenced c) (op : OpId) : ¬ Precedes c.history op op := by
  rintro ⟨before, after, out, request, split, told, asked⟩
  have forward := h.forward
  rw [split] at forward
  exact (List.pairwise_append.mp forward).2.2 _ told _ asked op out request rfl rfl

end Order

section Projection

variable {m m' : MultiRaft ID} {s s' : Nat} {c : Cluster ID}

/-- Of what is tagged with one shard, all comes back for that shard and nothing for another. -/
theorem messages_tag (news : List (Msg ID)) :
    (((news.map fun msg => (s, msg)).filter fun x => x.1 = s').map Prod.snd) =
      if s' = s then news else [] := by
  by_cases own : s' = s
  · simp [List.filter_map, Function.comp_def, own]
  · simp [List.filter_map, Function.comp_def, own, Ne.symm own]

theorem history_tag (news : List ClientEvent) :
    (((news.map fun e => e.relabel fun op => (s, op)).filter fun e => e.op.1 = s').map fun e =>
        e.relabel Prod.snd) = if s' = s then news else [] := by
  by_cases own : s' = s
  · simp [List.filter_map, Function.comp_def, own, Linearizability.relabel_relabel]
  · simp [List.filter_map, Function.comp_def, own, Ne.symm own]

theorem messages_setCluster :
    (m.setCluster s c).messages s' =
      m.messages s' ++ if s' = s then c.group.net.drop (m.messages s).length else [] := by
  rw [← messages_tag, MultiRaft.messages, MultiRaft.messages, ← List.map_append,
    ← List.filter_append]
  rfl

theorem shardHistory_setCluster :
    (m.setCluster s c).shardHistory s' =
      m.shardHistory s' ++ if s' = s then c.history.drop (m.shardHistory s).length else [] := by
  rw [← history_tag, MultiRaft.shardHistory, MultiRaft.shardHistory, ← List.map_append,
    ← List.filter_append]
  rfl

theorem append_drop_of_prefix {α : Type} {a b : List α} (h : a <+: b) : a ++ b.drop a.length = b := by
  obtain ⟨rest, rfl⟩ := h
  rw [List.drop_left]

/-- The shard that was set is what it was set to. -/
theorem cluster_setCluster (net : m.messages s <+: c.group.net)
    (history : m.shardHistory s <+: c.history) : (m.setCluster s c).cluster s = c := by
  have net' : (m.setCluster s c).messages s = c.group.net := by
    rw [messages_setCluster, if_pos rfl, append_drop_of_prefix net]
  have history' : (m.setCluster s c).shardHistory s = c.history := by
    rw [shardHistory_setCluster, if_pos rfl, append_drop_of_prefix history]
  rw [MultiRaft.cluster, net', history']
  simp only [MultiRaft.setCluster, Function.update_self]

theorem cluster_setCluster_ne (other : s' ≠ s) : (m.setCluster s c).cluster s' = m.cluster s' := by
  rw [MultiRaft.cluster, messages_setCluster, shardHistory_setCluster, if_neg other, if_neg other]
  simp only [MultiRaft.setCluster, Function.update_of_ne other, List.append_nil]
  rfl

variable [DecidableEq ID] {cfg : Config ID} {T : Transport} {numShards : Nat}

theorem cluster_restart (n : ID) (replicas : Nat → Process ID Store) :
    (m.restart n replicas).cluster s =
      { m.cluster s with
        group :=
          { (m.cluster s).group with
            procs := Function.update (m.cluster s).group.procs n (replicas s) }
        calls := fun i => ((m.cluster s).calls i).filter fun call => call.node ≠ n } := by
  have procs : (fun p => (m.restart n replicas).replicas p s) =
      Function.update (m.cluster s).group.procs n (replicas s) := by
    funext p
    by_cases own : p = n
    · subst own
      simp [MultiRaft.restart]
    · simp [MultiRaft.restart, Function.update_of_ne own, MultiRaft.cluster]
  rw [MultiRaft.cluster, procs]
  rfl

/-- A step of the whole is a step of each shard, or nothing. -/
theorem step_cluster (step : MultiRaft.Step cfg codecs window T numShards m m')
    (hosted : s < numShards) :
    m'.cluster s = m.cluster s ∨
      Cluster.Step cfg codecs window T (m.cluster s) (m'.cluster s) := by
  cases step with
  | @shard s₀ c _ inner owned =>
      by_cases own : s = s₀
      · subst own
        obtain ⟨net, history⟩ := step_grows inner
        rw [cluster_setCluster net history]
        exact Or.inr inner
      · exact Or.inl (cluster_setCluster_ne own)
  | @crash n replicas restarts =>
      obtain ⟨ops, store, interrupted, stored, started⟩ := restarts s hosted
      rw [cluster_restart]
      exact Or.inr (.crash ⟨ops, store, replicas s, interrupted, stored, started, rfl⟩)

/-- What each shard goes through in a run of the whole is a run of the shard. -/
theorem run_cluster {run : List (MultiRaft ID)} (h : MultiRaft.Run cfg codecs window T numShards run m)
    (hosted : s < numShards) :
    ∃ run', Cluster.Run cfg codecs window T run' (m.cluster s) ∧
      ∀ c ∈ run', c ∈ run.map (·.cluster s) := by
  induction h with
  | initial => exact ⟨_, .initial, fun _ hc => hc⟩
  | @step run m m' _ next ih =>
      obtain ⟨run', inner, among⟩ := ih
      have kept (c : Cluster ID) (hc : c ∈ run') : c ∈ (m' :: run).map (·.cluster s) :=
        List.mem_cons_of_mem _ (among c hc)
      cases step_cluster next hosted with
      | inl same =>
          rw [same]
          exact ⟨run', inner, kept⟩
      | inr moves =>
          exact ⟨_, .step inner moves, List.forall_mem_cons.mpr ⟨List.mem_cons_self, kept⟩⟩

end Projection
section Whole

variable {numShards : Nat}

/-- Calls are recorded for the shard that owns their key, which is one of the node's. -/
structure Routed (numShards : Nat) (m : MultiRaft ID) : Prop where
  hosted : ∀ e ∈ m.history, e.op.1 < numShards
  owned : ∀ op request, .invoke op request ∈ m.history → forKey request.key numShards = op.1

variable {m m' : MultiRaft ID} {run : List (MultiRaft ID)}

theorem mem_setCluster {s : Nat} {c : Cluster ID} {e : ShardEvent}
    (h : e ∈ (m.setCluster s c).history) :
    e ∈ m.history ∨ ∃ e₀ ∈ c.history, e = e₀.relabel (s, ·) := by
  cases List.mem_append.mp h with
  | inl old => exact Or.inl old
  | inr new =>
      obtain ⟨e₀, there, rfl⟩ := List.mem_map.mp new
      exact Or.inr ⟨e₀, List.mem_of_mem_drop there, rfl⟩

theorem withinWindow_mono {run run' : List (Cluster ID)} (sub : ∀ c ∈ run', c ∈ run)
    (h : Cluster.WithinWindow codecs window run) : Cluster.WithinWindow codecs window run' := by
  have applied {e : Entry} (there : Cluster.Applied run' e) : Cluster.Applied run e := by
    obtain ⟨⟨c, hc, commits⟩, c', hc', reached⟩ := there
    exact ⟨⟨c, sub c hc, commits⟩, c', sub c' hc', reached⟩
  exact fun e e' id there there' => h e e' id (applied there) (applied there')

variable [DecidableEq ID] {cfg : Config ID} {T : Transport}

theorem routed_step (h : Routed numShards m)
    (step : MultiRaft.Step cfg codecs window T numShards m m') : Routed numShards m' := by
  cases step with
  | crash => exact ⟨h.hosted, h.owned⟩
  | @shard s c hosted _ owned =>
      refine ⟨fun e he => ?_, fun op request asked => ?_⟩
      · cases mem_setCluster he with
        | inl old => exact h.hosted e old
        | inr new =>
            obtain ⟨e₀, -, rfl⟩ := new
            simpa using hosted
      · cases mem_setCluster asked with
        | inl old => exact h.owned op request old
        | inr new =>
            obtain ⟨e₀, there, same⟩ := new
            cases e₀ with
            | invoke op₀ request₀ =>
                cases same
                exact owned op₀ request there
            | respond => cases same

theorem run_routed (h : MultiRaft.Run cfg codecs window T numShards run m) :
    Routed numShards m := by
  induction h with
  | initial =>
      refine ⟨fun e he => ?_, fun op request asked => ?_⟩
      · cases he
      · cases asked
  | step _ next ih => exact routed_step ih next

omit [DecidableEq ID] in
/-- The events of a shard, with the name of the shard. -/
theorem filter_history (m : MultiRaft ID) (s : Nat) :
    (m.history.filter fun e => decide (e.op.1 = s)) =
      (m.shardHistory s).map (Event.relabel (s, ·)) := by
  rw [MultiRaft.shardHistory, List.map_map]
  refine (List.map_id _).symm.trans (List.map_congr_left fun e he => ?_)
  have own : e.op.1 = s := of_decide_eq_true (List.mem_filter.mp he).2
  cases e with
  | invoke op request | respond op out =>
      cases own
      rfl

/-- The part of a state that shard `s` owns. -/
def ownedBy (numShards s : Nat) (st : String → KeyState) (key : String) : Option KeyState :=
  if forKey key numShards = s then some (st key) else none

theorem ownedBy_self {st st' : String → KeyState} {key : String}
    (same : ownedBy numShards (forKey key numShards) st =
      ownedBy numShards (forKey key numShards) st') : st key = st' key := by
  simpa [ownedBy] using congrFun same key

/-- A request sees and changes its key only, and with it the shard that owns it. -/
theorem kvSpec_parted (numShards : Nat) :
    Parted kvSpec (fun request : Request => forKey request.key numShards) (ownedBy numShards) := by
  refine ⟨fun st st' request same => ?_, fun st request s other => ?_⟩
  · have here : st request.key = st' request.key := ownedBy_self same
    cases request with
    | get key =>
        rw [Request.key] at here
        simp only [kvSpec, here, true_and]
        exact same
    | write w =>
        rw [Request.key] at here
        simp only [kvSpec, here, true_and]
        funext key
        by_cases own : key = w.key
        · simp [ownedBy, own]
        · simpa [ownedBy, Function.update_of_ne own] using congrFun same key
  · cases request with
    | get key => rfl
    | write w =>
        funext key
        by_cases own : key = w.key
        · simp [ownedBy, own, show forKey w.key numShards ≠ s from Ne.symm other]
        · simp [kvSpec, ownedBy, Function.update_of_ne own]

/-- Retries stay within the window in every shard. -/
def MultiRaft.WithinWindow (codecs : Codecs) (window numShards : Nat)
    (run : List (MultiRaft ID)) : Prop :=
  ∀ s < numShards, Cluster.WithinWindow codecs window (run.map (·.cluster s))

/-- Each shard's history is linearizable, as part of a run of all of them. -/
theorem shardHistory_linearizable (honours : T.HonoursContext)
    (h : MultiRaft.Run cfg codecs window T numShards run m)
    (within : MultiRaft.WithinWindow codecs window numShards run) {s : Nat} (hosted : s < numShards) :
    Linearizable kvSpec (m.shardHistory s) := by
  obtain ⟨run', inner, among⟩ := run_cluster h hosted
  obtain ⟨a, stamped, backed⟩ := run_backed honours inner
  exact backed_linearizable backed (withinWindow_mono among (within s hosted))

/-- No call of any shard is answered before it is made. -/
theorem history_irrefl (h : MultiRaft.Run cfg codecs window T numShards run m) (op : Nat × OpId) :
    ¬ Precedes m.history op op := by
  intro before
  obtain ⟨s, name⟩ := op
  have hosted : s < numShards := by
    obtain ⟨first, rest, out, request, split, told, -⟩ := before
    exact (run_routed h).hosted _ (split ▸ List.mem_append_left _ told)
  obtain ⟨run', inner, -⟩ := run_cluster h hosted
  have own := precedes_filter (p := fun e => decide (e.op.1 = s)) before fun e _ named => by
    cases named with
    | inl same | inr same => simp [same]
  rw [filter_history] at own
  exact sequenced_irrefl (run_sequenced inner) name
    (precedes_relabel (Prod.mk_right_injective s) own)

theorem history_linearizable (honours : T.HonoursContext)
    (h : MultiRaft.Run cfg codecs window T numShards run m)
    (within : MultiRaft.WithinWindow codecs window numShards run) :
    Linearizable kvSpec m.history := by
  refine linearizable_of_parts (kvSpec_parted numShards) Prod.fst (run_routed h).owned
    (history_irrefl h) fun s => ?_
  rw [filter_history]
  refine linearizable_relabel (Prod.mk_right_injective s) ?_
  by_cases hosted : s < numShards
  · exact shardHistory_linearizable honours h within hosted
  · -- Nothing is recorded for a shard that no node has.
    have none : m.shardHistory s = [] := by
      refine List.map_eq_nil_iff.mpr (List.filter_eq_nil_iff.mpr fun e he own => hosted ?_)
      exact of_decide_eq_true own ▸ (run_routed h).hosted e he
    rw [none]
    exact ⟨[], .nil, fun x hx => (by cases hx), fun op out told => (by cases told), .nil, trivial⟩

/-- In every run of processes that host all shards, with a call for a key made on the shard
that owns it, the history of all clients is that of one store that holds all keys. -/
theorem multiRaft_linearizable (cfg : Config ID) (codecs : Codecs) (window : Nat) (T : Transport)
    (honours : T.HonoursContext) (numShards : Nat) (run : List (MultiRaft ID)) (m : MultiRaft ID)
    (h : MultiRaft.Run cfg codecs window T numShards run m)
    (within : MultiRaft.WithinWindow codecs window numShards run) :
    Linearizable kvSpec m.history :=
  history_linearizable honours h within

end Whole

section Samples

variable [DecidableEq ID] {cfg : Config ID} {T : Transport} {numShards : Nat}

/-- A run of one shard while the others do nothing. -/
theorem run_lift {run : List (Cluster ID)} {c : Cluster ID} {s : Nat}
    (h : Cluster.Run cfg codecs window T run c) (hosted : s < numShards)
    (owned : ∀ op request, .invoke op request ∈ c.history → forKey request.key numShards = s) :
    ∃ (runs : List (MultiRaft ID)) (m : MultiRaft ID),
      MultiRaft.Run cfg codecs window T numShards runs m ∧ m.cluster s = c ∧ m ∈ runs ∧
        ∀ x ∈ runs, x.cluster s ∈ run ∧ ∀ s' ≠ s, x.cluster s' = Cluster.initial codecs window := by
  induction h with
  | initial =>
      refine ⟨_, _, .initial, rfl, List.mem_singleton_self _, fun x hx => ?_⟩
      rw [List.mem_singleton.mp hx]
      exact ⟨List.mem_singleton_self _, fun _ _ => rfl⟩
  | @step run c c' before next ih =>
      obtain ⟨net, history⟩ := step_grows next
      obtain ⟨runs, m, outer, here, last, others⟩ := ih fun op request asked =>
        owned op request (history.subset asked)
      subst here
      refine ⟨_, _, outer.step (.shard hosted next owned), cluster_setCluster net history,
        List.mem_cons_self .., fun x hx => ?_⟩
      cases List.mem_cons.mp hx with
      | inl now =>
          subst now
          rw [cluster_setCluster net history]
          refine ⟨List.mem_cons_self .., fun s' other => ?_⟩
          rw [cluster_setCluster_ne other]
          exact (others m last).2 s' other
      | inr old => exact ⟨List.mem_cons_of_mem _ (others x old).1, (others x old).2⟩

/-- A put that node 0 of three answers. -/
theorem put_within :
    ∃ c : Cluster Nat, Cluster.Within trio (shortCodecs firstPut) 10 ⟨false⟩ 2 c ∧
      c.history =
        [.invoke (.write "r") (.write ⟨"a", .put ⟨[7], false, 0⟩, none⟩),
          .respond (.write "r") (.wrote { version := 1 })] := by
  obtain ⟨g₁, h₁, g₂, h₂, le₂, g₃, h₃, told⟩ :
      ∃ g₁, Group.playWithin trio (Store.machine (shortCodecs firstPut) 10) ⟨false⟩ 2
          (Group.initial (Store.machine (shortCodecs firstPut) 10))
          (committedRun ++ [(0, .applier .apply), (0, .applier .finishBatch)]) = some g₁ ∧
        ∃ g₂, Group.act trio (Store.machine (shortCodecs firstPut) 10) ⟨false⟩ g₁ 0
          (.client (.propose 0 [0])) = some g₂ ∧ (g₂.procs 0).position ≤ 2 ∧
        ∃ g₃, Group.playWithin trio (Store.machine (shortCodecs firstPut) 10) ⟨false⟩ 2 g₂
          putRun = some g₃ ∧ ((⟨0, [0], 1⟩ : Proposal), .ok [0]) ∈ (g₃.procs 0).raft.done :=
    ⟨_, rfl, _, rfl, Nat.le_of_ble_eq_true rfl, _, rfl, List.mem_cons_self ..⟩
  have start : Cluster.Within trio (shortCodecs firstPut) 10 ⟨false⟩ 2
      (Cluster.initial (shortCodecs firstPut) 10 : Cluster Nat) := by
    refine ⟨_, .initial, fun c hc m => ?_, List.mem_singleton_self _⟩
    rw [List.mem_singleton.mp hc]
    exact Nat.zero_le _
  have invoked := within_call (within_play start h₁)
    (@Cluster.Step.write Nat _ trio _ 10 ⟨false⟩ _ 0 firstPut _ 0 rfl (by decide)
      fun request there => by cases there) rfl
  have performs : Group.Performs trio (Store.machine (shortCodecs firstPut) 10) ⟨false⟩ 0
      (.client (.propose 0 ((shortCodecs firstPut).command.marshal firstPut))) g₁ g₂ :=
    Group.act_enabled h₂
  have proposed := within_performs invoked
    (@Cluster.Step.propose Nat _ trio _ 10 ⟨false⟩ _ 0 0 firstPut g₂ rfl performs) performs le₂
  have wrote := within_call (within_play proposed h₃)
    (@Cluster.Step.wrote Nat _ trio _ 10 ⟨false⟩ _ 0 0 firstPut _ [0] { version := 1 } rfl told rfl
      rfl) rfl
  exact ⟨_, wrote, rfl⟩

theorem multiRaft_linearizable_two_shards :
    ∃ (run : List (MultiRaft Nat)) (m : MultiRaft Nat),
      MultiRaft.Run trio (shortCodecs firstPut) 10 ⟨false⟩ 2 run m ∧
      m.shardHistory 0 =
        [.invoke (.write "r") (.write ⟨"a", .put ⟨[7], false, 0⟩, none⟩),
          .respond (.write "r") (.wrote { version := 1 })] ∧
      m.shardHistory 1 = [.invoke (.get 0) (.get "b")] ∧ Linearizable kvSpec m.history := by
  obtain ⟨c, ⟨run, inner, small, -⟩, history⟩ := put_within
  obtain ⟨runs, m, outer, here, last, others⟩ := run_lift inner (show 0 < 2 by decide)
    fun op request asked => by
      rw [history] at asked
      simp only [List.mem_cons, Event.invoke.injEq, reduceCtorEq, List.not_mem_nil, or_false] at asked
      rw [asked.2]
      decide
  have idle : m.cluster 1 = Cluster.initial (shortCodecs firstPut) 10 :=
    (others m last).2 1 (by decide)
  -- While the put has been answered in one shard, a get starts in the other.
  have gets := @Cluster.Step.get Nat _ trio (shortCodecs firstPut) 10 ⟨false⟩ (m.cluster 1) 0 "b"
  obtain ⟨net, grows⟩ := step_grows gets
  have asks := outer.step (.shard (by decide) gets fun op request asked => by
    rw [idle] at asked
    cases List.mem_singleton.mp asked
    decide)
  refine ⟨_, _, asks, ?_, ?_, multiRaft_linearizable trio (shortCodecs firstPut) 10 ⟨false⟩ rfl 2 _ _
    asks fun s hosted => small_within (b := 2) ?_ (by decide)⟩
  · rw [← history, ← here]
    exact congrArg Cluster.history (cluster_setCluster_ne (by decide))
  · refine (congrArg Cluster.history (cluster_setCluster net grows)).trans ?_
    rw [idle]
    rfl
  · have before : Cluster.Small 2 (runs.map (·.cluster s)) := by
      intro x hx n
      obtain ⟨y, hy, rfl⟩ := List.mem_map.mp hx
      by_cases first : s = 0
      · exact small _ (first ▸ (others y hy).1) n
      · rw [(others y hy).2 s first]
        exact Nat.zero_le _
    refine small_cons before fun n => ?_
    by_cases first : s = 0
    · subst first
      dsimp only
      rw [cluster_setCluster_ne (show 0 ≠ 1 by decide)]
      exact small _ (others m last).1 n
    · have second : s = 1 := by omega
      subst second
      dsimp only
      rw [cluster_setCluster net grows]
      show ((m.cluster 1).group.procs n).position ≤ 2
      rw [idle]
      exact Nat.zero_le _

end Samples
end EdgeKV
