import EdgeKV.Raft.Replay
import EdgeKV.Raft.Clocks

/-!
Reads are fresh. A leader that confirms a read has heard from a majority in answer
to calls that it sent after the read began, so no member of that majority was past
its term when the read was asked for, and nothing can have been committed in a later
term by then. What earlier terms had committed lies below the no-op of its own.
-/
namespace EdgeKV

open Consensus (CommittedBy Grows Later IsMajority)

variable {ID σ : Type}

section Effects

variable {cfg : Config ID} {self : ID} {M : StateMachine σ} {T : Transport}
  {p p' : Process ID σ} {act : Action ID} {out : Outcome ID σ} {sent : List (Msg ID)}

theorem answerReads_mem {batch : List Nat} {answer : Except (RaftError ID) Nat} {id index : Nat}
    (h : (id, .ok index) ∈ (p.answerReads batch answer).readDone) :
    (id, .ok index) ∈ p.readDone ∨ (id ∈ batch ∧ answer = .ok index) := by
  rcases List.mem_append.mp h with old | new
  · exact Or.inl old
  · obtain ⟨id', there, eq⟩ := List.mem_map.mp new
    obtain ⟨rfl, rfl⟩ := Prod.mk.inj eq
    exact Or.inr ⟨there, rfl⟩

variable [DecidableEq ID]

/-- What an action does to the reader: a new batch starts on a leader that has committed
its no-op, and an index is answered only after a majority was heard from. -/
structure Reads (cfg : Config ID) (n : ID) (p p' : Process ID σ) : Prop where
  reader : p'.reader = p.reader ∨ p'.reader = .waiting ∨
    ∃ batch now, p.clock < now ∧ p.raft.startRead batch now = .ok p'.reader ∧ p'.raft = p.raft
  answers : ∀ id index, (id, .ok index) ∈ p'.readDone → (id, .ok index) ∈ p.readDone ∨
    ∃ batch term start, p.reader = .confirming batch term index start ∧ id ∈ batch ∧
      p.raft.state = .leader ∧ p.raft.term = term ∧ p.raft.hasQuorumAckSinceLocked cfg n start

theorem effect_reads (h : Effect cfg self M T p act out) (next : out.next = some (p', sent)) :
    Reads cfg self p p' := by
  cases h with
  | wonElection round won real later =>
      obtain ⟨-, eq, -⟩ := tryLock_next next
      rw [eq]
      exact ⟨Or.inl rfl, fun _ _ => Or.inl⟩
  | appendProposals nonempty there batch =>
      obtain ⟨-, eq, -⟩ := tryLock_next next
      rw [eq]
      exact ⟨Or.inl rfl, fun _ _ => Or.inl⟩
  | appendEntries =>
      obtain ⟨x, handled, hx⟩ := Option.map_eq_some_iff.mp next
      cases hx
      exact ⟨Or.inl rfl, fun _ _ => Or.inl⟩
  | refuseRead waiting later refused =>
      cases next
      refine ⟨Or.inr (Or.inl rfl), fun id index told => ?_⟩
      rcases answerReads_mem told with old | ⟨-, eq⟩
      · exact Or.inl old
      · cases eq
  | startRead waiting later started =>
      cases next
      exact ⟨Or.inr (Or.inr ⟨_, _, later, started, rfl⟩), fun _ _ => Or.inl⟩
  | @checkRead batch term readIndex start result confirming decided =>
      cases next
      refine ⟨Or.inr (Or.inl rfl), fun id index told => ?_⟩
      rcases answerReads_mem told with old | ⟨there, rfl⟩
      · exact Or.inl old
      · simp only [Raft.checkRead] at decided
        split at decided
        · cases decided
        next leads =>
          rw [not_or, not_not, not_not] at leads
          split at decided
          next heard =>
            cases decided
            exact Or.inr ⟨batch, term, start, confirming, there, leads.1, leads.2, heard⟩
          · cases decided
  | abandonRead confirming =>
      cases next
      refine ⟨Or.inr (Or.inl rfl), fun id index told => ?_⟩
      rcases answerReads_mem told with old | ⟨-, eq⟩
      · exact Or.inl old
      · cases eq
  | replicatePanic | takePanic | restorePanic | applyPanic | finishPanic => cases next
  | campaign | wonPreVote | requestVote | sendTimeoutNow | replicate | readSnapshot | send
  | installSnapshot | startTransfer | targetReady | checkQuorum | electionTimeout | abandonCampaign | voteReply
  | timeoutNow | appendReply | installReply | propose | readIndex | endTransfer | stop
  | takeSnapshot | takeEntries | restore | finishRestore | skip | apply | finishBatch
  | snapshotFailed | snapshot | snapshotOvertaken | snapshotTerm | saveFailed | saveSnapshot
  | compact =>
      cases next
      exact ⟨Or.inl rfl, fun _ _ => Or.inl⟩

end Effects

section Commits

variable {cfg : Config ID} {a : Abs ID} {M : StateMachine σ} {n : ID} {p : Process ID σ}

/-- A leader that has committed its no-op knows of every commit up to its term. -/
theorem leader_commit (sound : Sound cfg a) (h : Node M a n p) (leads : p.raft.state = .leader)
    (ready : p.raft.noopIndex ≤ p.raft.commitIndex) {u : Nat} (le : u ≤ p.raft.term) :
    a.commit u ≤ p.raft.commitIndex := by
  have lead := h.leads leads
  rcases Nat.eq_or_lt_of_le le with rfl | lt
  · exact lead.commit
  · obtain ⟨L, stood, pre, -⟩ := sound.inv.leader_stood lead.leader
    have known := (Consensus.committed_stood sound.inv (Nat.le_refl _) lt lead.leader stood).length_le
    rw [List.length_take, Nat.min_eq_left (Consensus.commit_le sound.inv u)] at known
    have below : L.length < p.raft.noopIndex := by
      by_contra inside
      have earlier := sound.inv.cand_term stood p.raft.noopIndex
      rw [← sound.inv.leader_log lead.leader h.term.symm] at pre
      rw [Consensus.termAt_eq_of_pre pre (by omega), lead.noop] at earlier
      omega
    omega

/-- If a majority has not gone past `term`, nothing is committed in a later one. -/
theorem commit_of_majority (sound : Sound cfg a) {term i : Nat}
    (below : ∀ u ≤ term, a.commit u ≤ i)
    (heard : IsMajority cfg.peers fun v => a.term v ≤ term) (u : Nat) : a.commit u ≤ i := by
  rcases Nat.eq_zero_or_pos (a.commit u) with none | some
  · omega
  · obtain ⟨-, -, acks⟩ := sound.inv.committed some
    obtain ⟨v, past, acked⟩ := Consensus.isMajority_meets heard acks
    exact below u ((sound.inv.acked_term (some.trans_le acked)).trans past)

/-- The commit index of a node is one of a leader. -/
theorem commitIndex_le (h : Node M a n p) {i : Nat} (bound : ∀ u, a.commit u ≤ i) :
    p.raft.commitIndex ≤ i := by
  obtain ⟨u, -, c, hc, len, eq⟩ := h.committed
  have size := congrArg List.length eq
  rw [List.length_take, List.length_take, Nat.min_eq_left h.commit_le, Nat.min_eq_left len] at size
  have := bound u
  omega

theorem hasQuorumAck_majority [DecidableEq ID] {r : Raft ID} {start : Nat} (member : n ∈ cfg.peers)
    (heard : r.hasQuorumAckSinceLocked cfg n start) :
    IsMajority cfg.peers fun v => v = n ∨ start ≤ r.ackedSendTime v := by
  refine ⟨n :: (cfg.others n).filter fun v => start ≤ r.ackedSendTime v, ?_, ?_, ?_, ?_⟩
  · refine List.nodup_cons.mpr ⟨fun inside => ?_, (cfg.distinct.filter _).filter _⟩
    have other := (List.mem_filter.mp (List.mem_filter.mp inside).1).2
    simp at other
  · intro v hv
    rcases List.mem_cons.mp hv with rfl | inside
    · exact member
    · exact (List.mem_filter.mp (List.mem_filter.mp inside).1).1
  · have size : cfg.quorum ≤ _ := of_decide_eq_true heard
    rw [List.length_cons]
    rw [Config.quorum] at size
    omega
  · intro v hv
    rcases List.mem_cons.mp hv with rfl | inside
    · exact Or.inl rfl
    · exact Or.inr (by simpa using (List.mem_filter.mp inside).2)

end Commits

/-- Read `id` has not been taken up by the reader of the node, in particular if it has
not been asked for. -/
def Process.Unserved (p : Process ID σ) (id : Nat) : Prop :=
  (∀ batch term readIndex start, p.reader = .confirming batch term readIndex start → id ∉ batch) ∧
  ∀ answer, (id, answer) ∉ p.readDone

/-- A read that was not taken up when the protocol was in state `a` and node `n` had
read `clock` off its clock, seen from a later state `g'`. -/
structure Awaits (a : Abs ID) (clock : Nat) (n : ID) (id : Nat) (a' : Abs ID)
    (g' : Group ID σ) : Prop where
  later : Later a a'
  timed : Timed g'
  clock_le : clock ≤ (g'.procs n).clock
  replies : ∀ m ∈ g'.net, ∀ src sentAt term, m.reply = some (src, n, sentAt, term) →
    clock < sentAt → a.term src ≤ term
  reader : ∀ batch term readIndex start,
    (g'.procs n).reader = .confirming batch term readIndex start → id ∈ batch →
      clock < start ∧ a'.leader term = some n ∧ a.term n ≤ term ∧
      (∀ u ≤ term, a.commit u ≤ readIndex) ∧
      ((g'.procs n).raft.term ≤ term → ∀ v, start ≤ (g'.procs n).raft.ackedSendTime v →
        a.term v ≤ term)
  answered : ∀ index, (id, .ok index) ∈ (g'.procs n).readDone → ∀ u, a.commit u ≤ index

section Freshness

variable {cfg : Config ID} {M : StateMachine σ} {T : Transport} {a a₁ a₂ : Abs ID}
  {g g₁ g₂ : Group ID σ} {n k : ID} {id clock : Nat}

theorem awaits_initial (timed : Timed g) (unserved : (g.procs n).Unserved id) :
    Awaits a (g.procs n).clock n id a g where
  later := .refl
  timed := timed
  clock_le := Nat.le_refl _
  replies m hm src sentAt term reply after := by
    have := timed.net m hm n sentAt (reply_stamp reply)
    omega
  reader batch term readIndex start confirming inside :=
    absurd inside (unserved.1 batch term readIndex start confirming)
  answered index told := absurd told (unserved.2 _)

variable [DecidableEq ID]

/-- The answers on the wire: a new one comes from a node that has only moved on. -/
theorem awaits_replies (h : Awaits a clock n id a₁ g₁) (rel : Rel cfg M a₁ g₁)
    (step : Group.StepOf cfg M T k g₁ g₂) {m : Msg ID} (hm : m ∈ g₂.net) {src : ID}
    {sentAt term : Nat} (reply : m.reply = some (src, n, sentAt, term)) (after : clock < sentAt) :
    a.term src ≤ term := by
  cases step with
  | @run act out p sent s enabled stored next =>
      rcases List.mem_append.mp hm with old | new
      · exact h.replies m old src sentAt term reply after
      · obtain ⟨rfl, le⟩ := (effect_timing (exec_effect enabled.exec) next).replies m new src n
          sentAt term reply
        have term := (rel.nodes src).term
        have := Consensus.later_term h.later src
        omega
  | crash interrupted stored restarted => exact h.replies m hm src sentAt term reply after

/-- A node that confirms a read hears only from peers that were not past its term. -/
theorem awaits_acked (h : Awaits a clock n id a₁ g₁) (rel : Rel cfg M a₁ g₁)
    {act : Action ID} {p : Process ID σ} (bearing : Bearing cfg n M (g₁.procs n) act p)
    (received : ∀ m, act.input n = some m → m ∈ g₁.net)
    {batch : List Nat} {term readIndex start : Nat}
    (confirming : (g₁.procs n).reader = .confirming batch term readIndex start)
    (inside : id ∈ batch) (current : (g₁.procs n).raft.term ≤ term) {v : ID}
    (heard : start ≤ p.raft.ackedSendTime v) : a.term v ≤ term := by
  obtain ⟨fresh, led, -, -, acks⟩ := h.reader batch term readIndex start confirming inside
  rcases bearing_acked bearing v with same | ⟨stands, -⟩ | ⟨m, respTerm, input, reply, le⟩
  · exact acks current v (same ▸ heard)
  · -- a candidate stands in a term that it does not lead, so it is past the read's
    have node := rel.nodes n
    obtain ⟨L, stood, -⟩ := rel.sound.inv.leader_stood led
    have bound := rel.sound.inv.cand_le stood
    have same : (g₁.procs n).raft.term = term := by
      have := node.term
      omega
    exact absurd (same ▸ led) (node.stands stands).vacant
  · exact (h.replies m (received m input) v _ respTerm reply (by omega)).trans (le.trans current)

/-- A batch that starts takes its index from a leader that knows of every commit so far. -/
theorem awaits_started (h : Awaits a clock n id a₁ g₁) (rel : Rel cfg M a₁ g₁)
    {batch batch' : List Nat} {term readIndex start now : Nat} (later : (g₁.procs n).clock < now)
    (started : (g₁.procs n).raft.startRead batch' now = .ok (.confirming batch term readIndex start)) :
    clock < start ∧ a₁.leader term = some n ∧ a.term n ≤ term ∧
      (∀ u ≤ term, a.commit u ≤ readIndex) ∧
      ∀ v, (g₁.procs n).raft.ackedSendTime v < start := by
  have node := rel.nodes n
  simp only [Raft.startRead] at started
  split at started
  · cases started
  next leads =>
    rw [not_not] at leads
    split at started
    · cases started
    next ready =>
      cases started
      refine ⟨h.clock_le.trans_lt later, (node.leads leads).leader, ?_, fun u le => ?_, fun v => ?_⟩
      · rw [node.term]
        exact Consensus.later_term h.later n
      · exact (Consensus.later_commit h.later u).trans
          (leader_commit rel.sound node leads (by omega) le)
      · exact (h.timed.acked n v).trans_lt later

theorem awaits_run (h : Awaits a clock n id a₁ g₁) (sound : Sound cfg a) (rel : Rel cfg M a₁ g₁)
    (grows : Grows n a₁ a₂) {act : Action ID} {out : Outcome ID σ} {p : Process ID σ}
    {sent : List (Msg ID)} (enabled : Enabled cfg M T g₁ n act out)
    (next : out.next = some (p, sent)) (term_le : (g₁.procs n).raft.term ≤ p.raft.term) :
    (∀ batch term readIndex start, p.reader = .confirming batch term readIndex start → id ∈ batch →
      clock < start ∧ a₂.leader term = some n ∧ a.term n ≤ term ∧
      (∀ u ≤ term, a.commit u ≤ readIndex) ∧
      (p.raft.term ≤ term → ∀ v, start ≤ p.raft.ackedSendTime v → a.term v ≤ term)) ∧
    ∀ index, (id, .ok index) ∈ p.readDone → ∀ u, a.commit u ≤ index := by
  have effect := exec_effect enabled.exec
  have reads := effect_reads effect next
  refine ⟨fun batch term readIndex start confirming inside => ?_, fun index told => ?_⟩
  · rcases reads.reader with same | idle | ⟨batch', now, later, started, raft⟩
    · rw [confirming] at same
      obtain ⟨fresh, led, le, below, -⟩ := h.reader batch term readIndex start same.symm inside
      refine ⟨fresh, grows.leader led, le, below, fun current v heard => ?_⟩
      exact awaits_acked h rel (effect_bearing effect next) enabled.received same.symm inside
        (term_le.trans current) heard
    · rw [confirming] at idle
      cases idle
    · rw [confirming] at started
      obtain ⟨fresh, led, le, below, unheard⟩ := awaits_started h rel later started
      refine ⟨fresh, grows.leader led, le, below, fun _ v heard => ?_⟩
      rw [raft] at heard
      exact absurd heard (Nat.not_le.mpr (unheard v))
  · rcases reads.answers id index told with old | ⟨batch, term, start, confirming, inside, leads,
      same, heard⟩
    · exact h.answered index old
    · obtain ⟨-, -, le, below, acks⟩ := h.reader batch term index start confirming inside
      refine commit_of_majority sound below ?_
      refine Consensus.isMajority_mono (hasQuorumAck_majority enabled.member heard) fun v hv => ?_
      rcases hv with rfl | hv
      · exact le
      · exact acks same.le v hv

/-- A step of any node. -/
theorem awaits_step (sound : Sound cfg a) (rel : Rel cfg M a₁ g₁) (rel' : Rel cfg M a₂ g₂)
    (grows : Grows k a₁ a₂) (step : Group.StepOf cfg M T k g₁ g₂)
    (h : Awaits a clock n id a₁ g₁) : Awaits a clock n id a₂ g₂ := by
  have rest : (∀ batch term readIndex start,
      (g₂.procs n).reader = .confirming batch term readIndex start → id ∈ batch →
      clock < start ∧ a₂.leader term = some n ∧ a.term n ≤ term ∧
      (∀ u ≤ term, a.commit u ≤ readIndex) ∧
      ((g₂.procs n).raft.term ≤ term → ∀ v, start ≤ (g₂.procs n).raft.ackedSendTime v →
        a.term v ≤ term)) ∧
      ∀ index, (id, .ok index) ∈ (g₂.procs n).readDone → ∀ u, a.commit u ≤ index := by
    by_cases own : n = k
    · subst own
      have term_le : (g₁.procs n).raft.term ≤ (g₂.procs n).raft.term := by
        rw [(rel.nodes n).term, (rel'.nodes n).term]
        exact grows.term n
      cases step with
      | run enabled stored next =>
          simp only [Function.update_self] at term_le ⊢
          exact awaits_run h sound rel grows enabled next term_le
      | crash interrupted stored restarted =>
          obtain ⟨raft, machine, -, -, rfl⟩ := start_eq restarted
          simp only [Function.update_self]
          exact ⟨fun _ _ _ _ confirming => (by cases confirming), fun _ told => by cases told⟩
    · have same : g₂.procs n = g₁.procs n := by
        cases step with
        | run enabled stored next => exact Function.update_of_ne own ..
        | crash interrupted stored restarted => exact Function.update_of_ne own ..
      rw [same]
      refine ⟨fun batch term readIndex start confirming inside => ?_, h.answered⟩
      obtain ⟨fresh, led, rest⟩ := h.reader batch term readIndex start confirming inside
      exact ⟨fresh, grows.leader led, rest⟩
  exact
    { later := h.later.tail ⟨k, grows⟩
      timed := timed_step step h.timed
      clock_le := h.clock_le.trans (clock_step step n)
      replies := fun m hm src sentAt term reply after => awaits_replies h rel step hm reply after
      reader := rest.1
      answered := rest.2 }

theorem awaits_steps (honours : T.HonoursContext) (rel : Rel cfg M a g) (timed : Timed g)
    (unserved : (g.procs n).Unserved id) (steps : Group.Steps cfg M T g g₁) :
    ∃ a₁, Later a a₁ ∧ Rel cfg M a₁ g₁ ∧ Awaits a (g.procs n).clock n id a₁ g₁ :=
  rel_induct honours
    (fun rel₁ rel₂ advance step h => awaits_step rel.sound rel₁ rel₂ advance.grows step h)
    rel (awaits_initial timed unserved) steps

end Freshness

section Reflection

variable {cfg : Config ID} {M : StateMachine σ} {a a' : Abs ID} {n : ID} {p : Process ID σ}

/-- What was committed up to an index that a node has applied is in its machine. -/
theorem committed_applied (sound' : Sound cfg a') (later : Later a a') (h' : Node M a' n p)
    {t : Nat} {P : List Entry} (committed : CommittedBy a t P)
    (applied : P.length ≤ p.raft.lastApplied) :
    ∃ L, Reflects M p.machine L ∧ P <+: L := by
  have position := applied_le_position h'.working
  have bound := (position_le_horizon h'.working).trans h'.working.horizon_le
  refine ⟨_, h'.working.reflects, ?_⟩
  have taken := Consensus.committedBy_take h'.committed p.position
  rw [List.take_take, Nat.min_eq_left bound] at taken
  rcases Consensus.committed_comparable sound'.inv (Consensus.later_committedBy later committed)
    taken with pre | pre
  · exact pre
  · have size := pre.length_le
    rw [List.length_take, Nat.min_eq_left (bound.trans h'.commit_le)] at size
    rw [pre.eq_of_length (by rw [List.length_take]; have := h'.commit_le; omega)]

end Reflection

/-- After `journalRun`, node 0 takes on read 9 and confirms it with a heartbeat to
node 1. -/
def readRun : List (Nat × Action Nat) :=
  let beat : AppendEntriesRequest Nat :=
    { term := 1, leaderId := 0, prevLogIndex := 2, prevLogTerm := 1, entries := []
      leaderCommit := 2 }
  [(0, .client (.readIndex 9)), (0, .client (.startRead 1 5)), (0, .replication (.replicate 1)),
    (0, .replication (.send (.append 1 beat) 6)), (1, .replication (.appendEntries 6 beat)),
    (0, .replication (.appendReply 1 6 beat { term := 1, success := true })),
    (0, .client .checkRead)]

section Runs

variable [DecidableEq ID]

/-- If a read that was not taken up in `g` is later answered with an index, this index
covers every commit that any node knew of in `g`, and once it is applied the machine has
gone through every write that any node had acknowledged in `g`. -/
theorem readIndex_fresh (cfg : Config ID) (M : StateMachine σ) (T : Transport)
    (honours : T.HonoursContext) (g g' : Group ID σ) (reachable : Group.Reachable cfg M T g)
    (steps : Group.Steps cfg M T g g') (n : ID) (id : Nat) (unserved : (g.procs n).Unserved id)
    (index : Nat) (answered : (id, .ok index) ∈ (g'.procs n).readDone) :
    (∀ m, (g.procs m).raft.commitIndex ≤ index) ∧
    (index ≤ (g'.procs n).raft.lastApplied →
      ∀ m q result, (q, .ok result) ∈ (g.procs m).raft.done →
        ∃ L i, Reflects M (g'.procs n).machine L ∧ L[i]? = some (q.entry (i + 1))) := by
  obtain ⟨a, rel, promises⟩ := reachable_promises honours reachable
  obtain ⟨a', later, rel', awaits⟩ :=
    awaits_steps honours rel (reachable_timed reachable) unserved steps
  have bound := awaits.answered index answered
  refine ⟨fun m => commitIndex_le (rel.nodes m) bound, fun applied m q result told => ?_⟩
  obtain ⟨P, -, committed, -⟩ := (promises m).done q result told
  have size : (P ++ [q.entry (P.length + 1)]).length ≤ index := by
    obtain ⟨u, -, c, hc, -, eq⟩ := committed
    rw [eq, List.length_take]
    have := bound u
    omega
  obtain ⟨L, reflects, pre⟩ :=
    committed_applied rel'.sound later (rel'.nodes n) committed (size.trans applied)
  exact ⟨L, P.length, reflects, getElem?_of_pre pre List.getElem?_concat_length⟩

theorem readIndex_fresh_journal :
    ∃ g g' : Group Nat Bytes, Group.Reachable trio journal ⟨false⟩ g ∧
      Group.Steps trio journal ⟨false⟩ g g' ∧ (9, .ok 2) ∈ (g'.procs 0).readDone ∧
      (∀ m, (g.procs m).raft.commitIndex ≤ 2) ∧
      ∃ L i, Reflects journal (g'.procs 0).machine L ∧
        L[i]? = some (Proposal.entry ⟨0, [5], 1⟩ (i + 1)) := by
  obtain ⟨g, hg, g', hg', reader, quiet, told, applied, answered⟩ :
      ∃ g, Group.play trio journal ⟨false⟩ (Group.initial journal) journalRun = some g ∧
        ∃ g', Group.play trio journal ⟨false⟩ g readRun = some g' ∧
          (g.procs 0).reader = .waiting ∧ (g.procs 0).readDone = [] ∧
          ((⟨0, [5], 1⟩ : Proposal), .ok []) ∈ (g.procs 0).raft.done ∧ (g'.procs 0).raft.lastApplied = 2 ∧
          (9, .ok 2) ∈ (g'.procs 0).readDone :=
    ⟨_, rfl, _, rfl, rfl, rfl, List.mem_cons_self .., rfl, List.mem_cons_self ..⟩
  have reachable : Group.Reachable trio journal ⟨false⟩ g := Group.play_steps hg
  have steps := Group.play_steps hg'
  have unserved : (g.procs 0).Unserved 9 :=
    ⟨fun _ _ _ _ h => (by rw [reader] at h; cases h), fun _ h => by rw [quiet] at h; cases h⟩
  have fresh := readIndex_fresh trio journal ⟨false⟩ rfl g g' reachable steps 0 9 unserved 2 answered
  exact ⟨g, g', reachable, steps, answered, fresh.1, fresh.2 applied.ge 0 _ _ told⟩

end Runs
end EdgeKV
