import EdgeKV.Raft.Simulation.Calls
import EdgeKV.Raft.Simulation.Leader
import EdgeKV.Raft.Provenance

/-!
The group refines the protocol: whatever a replica does is moves of the abstract
protocol, and so is what is left of it when it crashes.
-/
namespace EdgeKV

open Consensus (termAt CommittedBy Grows Later majority IsMajority)

variable {ID σ : Type} {cfg : Config ID} {M : StateMachine σ} {a : Abs ID} {n : ID}
  {p : Process ID σ} {out : Outcome ID σ}

theorem solicit_msgs {peers : List ID} {req : Option (RequestVoteRequest ID)}
    (rel : ∀ q, req = some q → q.preVote = false → ∃ L, VoteRel a q L) :
    ∀ m ∈ (req.toList.flatMap fun q => peers.map fun peer => Msg.requestVote peer q),
      MsgRel M a m := by
  intro m hm
  obtain ⟨q, hq, hm⟩ := List.mem_flatMap.mp hm
  obtain ⟨peer, -, rfl⟩ := List.mem_map.mp hm
  exact rel q (Option.mem_toList.mp hq)

/-- Answering waiters changes nothing but what clients are told. -/
theorem foldl_answer_eq (r : Raft ID) (results : List (Entry × Bytes)) :
    ∃ waiters done, results.foldl Raft.answer r = { r with waiters, done } := by
  induction results generalizing r with
  | nil => exact ⟨r.waiters, r.done, rfl⟩
  | cons x results ih =>
      obtain ⟨waiters, done, first⟩ : ∃ waiters done, r.answer x = { r with waiters, done } := by
        simp only [Raft.answer]
        split
        · exact ⟨r.waiters, r.done, rfl⟩
        · exact ⟨_, _, rfl⟩
      obtain ⟨waiters', done', rest⟩ := ih (r.answer x)
      refine ⟨waiters', done', ?_⟩
      rw [List.foldl_cons, rest, first]

variable [DecidableEq ID] {T : Transport} {g g' : Group ID σ}

/-- What an action leaves if it does not panic: the node and its messages in place. -/
def Settled (cfg : Config ID) (M : StateMachine σ) (n : ID) (out : Outcome ID σ) (a : Abs ID)
    (s : MemStorage ID) : Prop :=
  ∀ p' sent, out.next = some (p', sent) →
    ∃ a', Commits cfg n p'.raft a a' ∧ Node M a' n { p' with storage := s } ∧
      ∀ m ∈ sent, MsgRel M a' m

theorem settled_lock {result : Raft ID × List (StorageOp ID)} {sent : List (Msg ID)}
    {s : MemStorage ID} (node : Node M a n { p with raft := result.1, storage := s })
    (msgs : ∀ m ∈ sent, MsgRel M a m) : Settled cfg M n (p.lock result sent) a s := by
  intro p' sent' next
  cases next
  exact ⟨a, .refl node rfl, node, msgs⟩

theorem settled_ended {result : Raft ID × List (StorageOp ID)} {s : MemStorage ID}
    (ended : Ended cfg M n a { p with raft := result.1, storage := s }) :
    Settled cfg M n (p.lock result []) a s := by
  intro p' sent next
  cases next
  obtain ⟨a', commits, node⟩ := ended
  exact ⟨a', commits, node, fun m hm => by cases hm⟩

theorem settled_tryLock {result : List (StorageOp ID) × Option (Raft ID)} {s : MemStorage ID}
    (ended : ∀ r, result.2 = some r → Ended cfg M n a { p with raft := r, storage := s }) :
    Settled cfg M n (p.tryLock result) a s := by
  intro p' sent next
  obtain ⟨r, found, eq⟩ := Option.map_eq_some_iff.mp next
  cases eq
  obtain ⟨a', commits, node⟩ := ended r found
  exact ⟨a', commits, node, fun m hm => by cases hm⟩

theorem settled_quiet {s : MemStorage ID} (node : Node M a n { p with storage := s }) :
    Settled cfg M n (Process.quiet p) a s := by
  intro p' sent next
  cases next
  exact ⟨a, .refl node rfl, node, fun m hm => by cases hm⟩

/-- A region without effects that leaves the protocol where it is. -/
theorem quiet_sim (sound : Sound cfg a) {s : MemStorage ID} (durable : Durable M a n s)
    (node : Node M a n p) (same : p.storage = s) :
    Sim cfg M n a s (Process.quiet p).ops (Settled cfg M n (Process.quiet p)) := by
  subst same
  exact Sim.idle sound durable (settled_quiet node)

section Actions

variable (sound : Sound cfg a) (h : Node M a n p)
include sound h

theorem applier_sim {act : ApplierAction} (effect : Effect cfg n M T p (.applier act) out)
    (genuine : Action.Genuine M p (.applier act)) :
    Sim cfg M n a p.storage out.ops (Settled cfg M n out) := by
  have staged {p' : Process ID σ} (node : Node M a n p') (same : p'.storage = p.storage) :=
    quiet_sim (p := p') sound h.durable node same
  have worked {p' : Process ID σ} (working : Working M (a.log n) p') (raft : p'.raft = p.raft)
      (storage : p'.storage = p.storage) (calls : p'.calls = p.calls) : Node M a n p' := by
    refine node_working h storage calls ?_ ?_ ?_ ?_ ?_ ?_ ?_ working <;> rw [raft]
  have gaveUp (rest : p.horizon = p.raft.lastApplied) (here : p.position = p.raft.lastApplied) :
      Node M a n { p with applier := .waiting } :=
    worked (idle_working h.working rest here) rfl rfl rfl
  cases effect with
  | takeSnapshot waiting running pending =>
      exact staged (node_working h rfl rfl rfl rfl rfl rfl rfl rfl rfl
        (takeSnapshot_working h.working waiting pending)) rfl
  | takeEntries waiting running pending behind cut =>
      exact staged (worked (takeEntries_working h.working h.log h.commit_le waiting pending behind
        cut) rfl rfl rfl) rfl
  | restore stage restored =>
      exact staged (worked (restore_working h.working stage restored) rfl rfl rfl) rfl
  | finishRestore stage =>
      exact staged (node_working h rfl rfl rfl rfl rfl rfl rfl rfl rfl
        (finishRestore_working h.working stage)) rfl
  | skip stage noop =>
      refine staged (worked ?_ rfl rfl rfl) rfl
      exact pass_working h.working stage fun P reflects => .skip reflects noop
  | apply stage normal applied =>
      refine staged (worked ?_ rfl rfl rfl) rfl
      exact pass_working h.working stage fun P reflects => .apply reflects normal applied
  | @finishBatch results last stage final =>
      obtain ⟨waiters, done, eq⟩ := foldl_answer_eq p.raft results
      simp only [Raft.finishBatch, eq]
      refine staged (node_working h rfl rfl rfl rfl rfl rfl rfl rfl rfl ?_) rfl
      refine finishBatch_working h.working (log_indexed sound n) stage final rfl rfl rfl rfl ?_
      split
      · exact Or.inl rfl
      · exact Or.inr rfl
  | snapshotFailed stage =>
      exact staged (gaveUp (by simp only [Process.horizon, stage])
        (by simp only [Process.position, stage])) rfl
  | snapshot stage =>
      exact staged (worked (capture_working h.working stage genuine) rfl rfl rfl) rfl
  | snapshotOvertaken stage gone =>
      exact staged (gaveUp (by simp only [Process.horizon, stage])
        (by simp only [Process.position, stage])) rfl
  | snapshotTerm stage held =>
      exact staged (worked (snapshotTerm_working h.working h.log stage held) rfl rfl rfl) rfl
  | @saveFailed index term data durable stage =>
      cases durable with
      | true =>
          refine (saveSnapshot_sim sound h stage (Or.inr rfl)).mono fun a' s' _ node => ?_
          exact settled_quiet node
      | false =>
          exact staged (gaveUp (by simp only [Process.horizon, stage])
            (by simp only [Process.position, stage])) rfl
  | saveSnapshot stage =>
      refine (saveSnapshot_sim sound h stage (Or.inl rfl)).mono fun a' s' _ node => ?_
      exact settled_quiet node
  | compact stage => exact staged (compact_node h stage) rfl
  | takePanic | restorePanic | applyPanic | finishPanic =>
      exact Sim.idle sound h.durable fun p' sent next => by cases next

/-- Clients move the protocol only by their proposals. -/
theorem client_sim (member : n ∈ cfg.peers) {act : ClientAction ID}
    (effect : Effect cfg n M T p (.client act) out) :
    Sim cfg M n a p.storage out.ops (Settled cfg M n out) := by
  have kept {p' : Process ID σ} (core : p'.core = p.core) (same : p'.storage = p.storage) :=
    quiet_sim (p := p') sound h.durable (node_congr h core) same
  cases effect with
  | propose running | readIndex running => exact kept rfl rfl
  | @appendProposals count nonempty there batch =>
      have node : Node M a n { p with proposeCh := p.proposeCh.drop count } := node_congr h rfl
      exact (appendProposals_sim sound member node _).mono fun a' s' _ post => settled_tryLock post
  | refuseRead waiting later refused => exact kept rfl rfl
  | startRead waiting later started => exact kept rfl rfl
  | checkRead confirming decided => exact kept rfl rfl
  | abandonRead confirming => exact kept rfl rfl
  | startTransfer later started =>
      simp only [Raft.startTransfer] at started
      split at started
      · cases started
      · split at started
        · cases started
        · split at started
          · cases started
          · cases started
            exact kept rfl rfl
  | targetReady active caughtUp => exact kept rfl rfl
  | sendTimeoutNow active unsent ready =>
      refine Sim.idle sound h.durable fun p' sent next => ?_
      cases next
      refine ⟨a, .refl h rfl, node_congr h rfl, fun m hm => ?_⟩
      rw [List.mem_singleton.mp hm]
      trivial
  | endTransfer active =>
      refine Sim.idle sound h.durable (settled_lock ?_ fun m hm => by cases hm)
      simp only [Raft.endTransfer]
      split <;> exact node_congr h rfl
  | stop =>
      refine Sim.idle sound h.durable (settled_lock ?_ fun m hm => by cases hm)
      simp only [Raft.stop]
      split
      · exact h
      · exact node_congr h rfl

theorem replication_sim (member : n ∈ cfg.peers) (honours : T.HonoursContext)
    {act : ReplicationAction ID} (effect : Effect cfg n M T p (.replication act) out)
    (received : ∀ m, (Action.replication act).input n = some m → MsgRel M a m) :
    Sim cfg M n a p.storage out.ops (Settled cfg M n out) := by
  cases effect with
  | replicatePanic => exact Sim.idle sound h.durable fun p' sent next => by cases next
  | replicate other built =>
      refine quiet_sim sound h.durable (node_calls h fun c hc => ?_) rfl
      rcases List.mem_cons.mp hc with rfl | old
      · exact replicateOnce_call sound h built
      · exact h.calls c old
  | readSnapshot waiting =>
      refine quiet_sim sound h.durable (node_calls h fun c hc => ?_) rfl
      rcases List.mem_append.mp hc with new | old
      · exact snapshotCall_rel sound h (h.calls _ waiting) (Option.mem_toList.mp new)
      · exact h.calls c (List.mem_of_mem_erase old)
  | send built later =>
      refine Sim.idle sound h.durable fun p' sent next => ?_
      cases next
      refine ⟨a, .refl h rfl, node_calls h fun c hc => h.calls c (List.mem_of_mem_erase hc),
        fun m hm => ?_⟩
      split at hm
      next live =>
        refine send_rel h built (live.resolve_left ?_) hm
        rw [honours]
        exact Bool.false_ne_true
      · cases hm
  | @appendEntries sentAt req =>
      refine (handleAppendEntries_sim sound h (received _ rfl)).mono fun a' s' _ post => ?_
      intro p' sent next
      obtain ⟨x, result, eq⟩ := Option.map_eq_some_iff.mp next
      cases eq
      obtain ⟨node, acked⟩ := post x.1 x.2 result
      refine ⟨a', .refl node rfl, node, fun m hm => ?_⟩
      rw [List.mem_singleton.mp hm]
      exact acked
  | appendReply =>
      exact (handleAppendReply_sim sound member h (received _ rfl)).mono
        fun a' s' _ ended => settled_ended ended
  | installSnapshot =>
      refine (handleInstallSnapshot_sim sound h (received _ rfl)).mono fun a' s' _ post => ?_
      refine settled_lock post.1 fun m hm => ?_
      rw [List.mem_singleton.mp hm]
      exact post.2
  | installReply =>
      exact (handleInstallReply_sim sound member h (received _ rfl)).mono
        fun a' s' _ ended => settled_ended ended

theorem election_sim (member : n ∈ cfg.peers) (ballots : Balloted cfg a.voted n p)
    (unique : ∀ {v t c c'}, a.voted v t c → a.voted v t c' → c = c') {act : ElectionAction ID}
    (effect : Effect cfg n M T p (.election act) out)
    (received : ∀ m, (Action.election act).input n = some m → MsgRel M a m) :
    Sim cfg M n a p.storage out.ops (Settled cfg M n out) := by
  have silent {a' : Abs ID} : ∀ m ∈ ([] : List (Msg ID)), MsgRel M a' m := fun m hm => by cases hm
  cases effect with
  | checkQuorum running leads =>
      simp only [Raft.checkQuorumLocked]
      split
      · exact Sim.idle sound h.durable (settled_lock h silent)
      · exact (becomeFollower_sim sound h p.raft.term none).mono
          fun a' s' _ node => settled_lock node silent
  | electionTimeout running idle =>
      refine Sim.idle sound h.durable (settled_lock ?_ silent)
      simp only [Raft.electionTimeout]
      split
      · exact h
      · exact node_congr h rfl
  | campaign starting =>
      exact (beginCampaign_sim sound h _).mono
        fun a' s' _ post => settled_lock post.1 (solicit_msgs post.2)
  | wonPreVote round won trial =>
      exact (afterPreVote_sim sound h _).mono
        fun a' s' _ post => settled_lock post.1 (solicit_msgs post.2)
  | @wonElection now req granted round won real later =>
      have ended : Node M a n { p with raft := p.raft.endCampaign, clock := now } :=
        node_congr h rfl
      simp only [Raft.afterElection]
      split
      next current =>
        have votes := round_majority member (ballots.round round real) won
        rw [← current.2.2] at votes
        exact (becomeLeader_sim sound member ended current.2.1 votes unique now).mono
          fun a' s' _ post => settled_tryLock post
      · refine Sim.idle sound h.durable (settled_tryLock fun r hr => ?_)
        cases hr
        exact Ended.node ended
  | abandonCampaign round =>
      exact Sim.idle sound h.durable (settled_lock (node_congr h rfl) silent)
  | requestVote =>
      refine (handleRequestVote_sim sound h (received _ rfl) _).mono fun a' s' _ node => ?_
      refine settled_lock node fun m hm => ?_
      rw [List.mem_singleton.mp hm]
      trivial
  | voteReply =>
      exact (handleVoteReply_sim sound h _ _ _).mono
        fun a' s' _ node => settled_lock node silent
  | timeoutNow =>
      refine Sim.idle sound h.durable (settled_lock ?_ silent)
      simp only [Raft.handleTimeoutNow]
      split
      · exact node_congr h rfl
      · exact h

end Actions

theorem effect_sim {act : Action ID} (honours : T.HonoursContext) (h : Rel cfg M a g)
    (enabled : Enabled cfg M T g n act out) :
    Sim cfg M n a (g.procs n).storage out.ops (Settled cfg M n out) := by
  have effect := exec_effect enabled.exec
  have received : ∀ m, act.input n = some m → MsgRel M a m :=
    fun m hm => h.msgs m (enabled.received m hm)
  cases act with
  | election x =>
      exact election_sim h.sound (h.nodes n) enabled.member (h.ballots.nodes n)
        (fun hv hv' => (h.ballots.nodes _).recorded.unique hv hv') effect received
  | replication x => exact replication_sim h.sound (h.nodes n) enabled.member honours effect received
  | client x => exact client_sim h.sound (h.nodes n) enabled.member effect
  | applier x => exact applier_sim h.sound (h.nodes n) effect enabled.genuine

theorem rel_initial (M : StateMachine σ) :
    Rel cfg M (Consensus.State.initial : Abs ID) (Group.initial M) where
  sound := ⟨Consensus.inv_initial, fun t k e he => by cases he⟩
  ballots := ballots_initial M
  nodes n :=
    { durable := ⟨rfl, ⟨le_rfl, rfl, rfl⟩, Consensus.committedBy_nil _ _, fun some => by cases some⟩
      term := rfl
      log := ⟨le_rfl, rfl, rfl⟩
      snap_le := le_rfl
      stored_le := le_rfl
      commit_le := le_rfl
      committed := Consensus.committedBy_nil _ _
      leads := fun state => by cases state
      stands := fun state => by cases state
      calls := fun c hc => by cases hc
      working :=
        { applied_le := le_rfl
          horizon_le := le_rfl
          reflects := .init
          stage := trivial
          pending := fun some => by cases some
          reach := Nat.zero_le _ } }
  msgs m hm := by cases hm

/-- The group after a step of node `n`, from what is known about that node. -/
theorem rel_update {ops : List (StorageOp ID)} {a₁ a' : Abs ID} {p' : Process ID σ} {r : Raft ID}
    {sent : List (Msg ID)} (h : Rel cfg M a g) (moves : Moves cfg n ops a a₁)
    (commits : Commits cfg n r a₁ a')
    (ballots : Ballots cfg (Votes.cast a.voted n ops)
      { procs := Function.update g.procs n p', net := g.net ++ sent })
    (node : Node M a' n p') (msgs : ∀ m ∈ sent, MsgRel M a' m) :
    Grows n a a' ∧
      Rel cfg M a' { procs := Function.update g.procs n p', net := g.net ++ sent } := by
  have sound := moves.sound h.sound
  have grows := (moves.grows h.sound).trans (commits.grows sound)
  have voted : a'.voted = Votes.cast a.voted n ops := commits.voted.trans moves.voted
  refine ⟨grows, commits.sound sound, voted ▸ ballots, fun m => ?_, fun m hm => ?_⟩
  · by_cases same : m = n
    · subst same
      simpa using node
    · simpa [same] using node_other grows same (h.nodes m)
  · rcases List.mem_append.mp hm with old | new
    · exact msgRel_grows h.sound grows (h.msgs m old)
    · exact msgs m new

/-- How one step of node `n` moves the protocol: first without committing, and at its
end perhaps committing. New entries of ledgers are no-ops and what was offered. -/
structure Advance (cfg : Config ID) (n : ID) (offered : List Proposal) (r : Raft ID)
    (a a' : Abs ID) : Prop where
  grows : Grows n a a'
  split : ∃ a₁ ops, Moves cfg n ops a a₁ ∧ Commits cfg n r a₁ a'
  minted : ∀ t, ∀ e ∈ a'.ledger t,
    (∃ u, e ∈ a.ledger u) ∨ e.type = .noop ∨ ∃ q ∈ offered, e.data = q.data

/-- What an action adds to a ledger. -/
theorem minted_run {act : Action ID} {out : Outcome ID σ} {ops : List (StorageOp ID)}
    {a₁ : Abs ID} (h : Rel cfg M a g) (enabled : Enabled cfg M T g n act out)
    (begun : ops ⊆ out.ops) (moves : Moves cfg n ops a a₁) {t : Nat} {e : Entry}
    (he : e ∈ a₁.ledger t) :
    (∃ u, e ∈ a.ledger u) ∨ e.type = .noop ∨ ∃ q ∈ (g.procs n).proposeCh, e.data = q.data := by
  rcases moves.minted t e he with old | saved
  · exact Or.inl old
  · rcases effect_entries (exec_effect enabled.exec) (begun saved) with noop | offered |
      ⟨sentAt, req, input, there⟩
    · exact Or.inr (Or.inl noop)
    · exact Or.inr (Or.inr offered)
    · have rel : AppendRel a req := h.msgs _ (enabled.received _ input)
      rw [rel.entries] at there
      exact Or.inl ⟨_, List.mem_of_mem_take (List.mem_of_mem_drop there)⟩

/-- One step of the group is moves of one node of the protocol. -/
theorem rel_step (honours : T.HonoursContext) (h : Rel cfg M a g)
    (step : Group.StepOf cfg M T n g g') :
    ∃ a', Advance cfg n (g.procs n).proposeCh (g'.procs n).raft a a' ∧ Rel cfg M a' g' := by
  cases step with
  | @run act out p sent s enabled stored next =>
      obtain ⟨a₁, moves, settled⟩ := (effect_sim honours h enabled).done s stored
      obtain ⟨a', commits, node, msgs⟩ := settled p sent next
      obtain ⟨grows, rel⟩ :=
        rel_update h moves commits (ballots_run h.ballots enabled stored next) node msgs
      refine ⟨a', ⟨grows, ⟨a₁, _, moves, by simpa using commits⟩, fun t e he => ?_⟩, rel⟩
      rw [commits.ledger] at he
      exact minted_run h enabled (List.Subset.refl _) moves he
  | @crash ops s p interrupted stored restarted =>
      have crashed : ∃ a', Moves cfg n ops a a' ∧ Durable M a' n s ∧ ∀ t, ∀ e ∈ a'.ledger t,
          (∃ u, e ∈ a.ledger u) ∨ e.type = .noop ∨
            ∃ q ∈ (g.procs n).proposeCh, e.data = q.data := by
        cases interrupted with
        | idle member =>
            cases stored
            exact ⟨a, Moves.refl n h.sound, (h.nodes n).durable, fun t e he => Or.inl ⟨t, he⟩⟩
        | during enabled begun =>
            obtain ⟨a', moves, durable⟩ := (effect_sim honours h enabled).crash ops s begun stored
            exact ⟨a', moves, durable, fun t e he => minted_run h enabled begun.subset moves he⟩
      obtain ⟨a', moves, durable, minted⟩ := crashed
      have ballots := ballots_crash h.ballots interrupted stored restarted
      have node := restart_node (moves.sound h.sound) durable restarted
      rw [← List.append_nil g.net] at ballots
      obtain ⟨grows, rel⟩ := rel_update h moves (.refl node rfl) ballots node fun m hm => by cases hm
      rw [List.append_nil] at rel
      exact ⟨a', ⟨grows, ⟨a', ops, moves, by simpa using Commits.refl node rfl⟩, minted⟩, rel⟩

/-- Whatever each step keeps, given the protocol states around it, a run keeps. -/
theorem rel_induct {I : Abs ID → Group ID σ → Prop} (honours : T.HonoursContext)
    (step : ∀ {n a a' g g'}, Rel cfg M a g → Rel cfg M a' g' →
      Advance cfg n (g.procs n).proposeCh (g'.procs n).raft a a' →
      Group.StepOf cfg M T n g g' → I a g → I a' g')
    (h : Rel cfg M a g) (base : I a g) (steps : Group.Steps cfg M T g g') :
    ∃ a', Later a a' ∧ Rel cfg M a' g' ∧ I a' g' := by
  induction steps with
  | refl => exact ⟨a, .refl, h, base⟩
  | tail _ next ih =>
      obtain ⟨n, next⟩ := next
      obtain ⟨a₁, later, h₁, i₁⟩ := ih
      obtain ⟨a₂, advance, h₂⟩ := rel_step honours h₁ next
      exact ⟨a₂, later.tail ⟨n, advance.grows⟩, h₂, step h₁ h₂ advance next i₁⟩

theorem rel_steps (honours : T.HonoursContext) (h : Rel cfg M a g)
    (steps : Group.Steps cfg M T g g') : ∃ a', Later a a' ∧ Rel cfg M a' g' := by
  obtain ⟨a', later, rel, -⟩ :=
    rel_induct (I := fun _ _ => True) honours (fun _ _ _ _ _ => trivial) h trivial steps
  exact ⟨a', later, rel⟩

/-- Every state of every run refines a state of the protocol. -/
theorem reachable_rel (honours : T.HonoursContext) (h : Group.Reachable cfg M T g) :
    ∃ a, Rel cfg M a g := by
  obtain ⟨a, -, rel⟩ := rel_steps honours (rel_initial M) h
  exact ⟨a, rel⟩

end EdgeKV
