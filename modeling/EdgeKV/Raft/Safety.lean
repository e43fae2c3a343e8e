import EdgeKV.Raft.Promises

/-!
The safety properties of a group, read off the refinement: log matching over
compacted logs, leader completeness and state machine safety. Each is stated over
the replicas alone; the protocol state that a run refines appears in the proofs only.
-/
namespace EdgeKV

open Consensus (termAt CommittedBy Grows Later majority)

variable {ID σ : Type}

section Entries

variable {L : List Entry} {l : RaftLog}

/-- An entry that a compacted log still holds is the one at its index. -/
theorem held_entry (held : Holds L l) (indexed : Indexed L) {e : Entry} (he : e ∈ l.entries) :
    l.snapIndex < e.index ∧ L[e.index - 1]? = some e := by
  rw [held.entries] at he
  obtain ⟨k, at_⟩ := List.getElem?_of_mem he
  rw [List.getElem?_drop] at at_
  have index := indexed _ e at_
  refine ⟨by omega, ?_⟩
  rw [index, Nat.add_sub_cancel]
  exact at_

/-- An entry of the full log is still held, or was compacted. -/
theorem entry_held (held : Holds L l) {i : Nat} {e : Entry} (at_ : L[i]? = some e)
    (above : l.snapIndex ≤ i) : e ∈ l.entries := by
  rw [held.entries]
  refine List.mem_of_getElem? (i := i - l.snapIndex) ?_
  rw [List.getElem?_drop, Nat.add_sub_cancel' above]
  exact at_

end Entries

section LogMatching

/-- Terms along the log never decrease and stay below `term`, and entries sit at
their index. -/
def RaftLog.Ordered (l : RaftLog) (term : Nat) : Prop :=
  (∀ i j, l.snapIndex ≤ i → i ≤ j → j ≤ l.lastIndex →
    ∃ t t', l.term i = some t ∧ l.term j = some t' ∧ t ≤ t' ∧ t' ≤ term) ∧
  ∀ k e, l.entries[k]? = some e → e.index = l.snapIndex + 1 + k

/-- Where both logs hold an index with the same term, they agree on every entry below
it that both still hold. -/
def RaftLog.Matching (l l' : RaftLog) : Prop :=
  ∀ i t, l.term i = some t → l'.term i = some t → ∀ e ∈ l.entries, ∀ e' ∈ l'.entries,
    e.index = e'.index → e.index < i → e.term = e'.term ∧ e.type = e'.type ∧ e.data = e'.data

variable {cfg : Config ID} {a : Abs ID} {M : StateMachine σ} {n m : ID} {p q : Process ID σ}

theorem node_ordered (sound : Sound cfg a) (h : Node M a n p) :
    p.raft.rlog.Ordered p.raft.term := by
  refine ⟨fun i j lo le hi => ?_, fun k e he => ?_⟩
  · rw [holds_lastIndex h.log] at hi
    refine ⟨_, _, holds_term_some h.log lo (le.trans hi), holds_term_some h.log (lo.trans le) hi,
      ?_, ?_⟩
    · exact Consensus.matched_mono sound.inv (sound.inv.log_matched n) le hi
    · rw [h.term]
      exact sound.inv.log_term n j
  · rw [h.log.entries, List.getElem?_drop] at he
    rw [log_indexed sound n _ e he]
    omega

theorem node_matching (sound : Sound cfg a) (h : Node M a n p) (h' : Node M a m q) :
    p.raft.rlog.Matching q.raft.rlog := by
  intro i t held held' e he e' he' same below
  obtain ⟨-, inside, term⟩ := term_holds h.log held
  obtain ⟨-, inside', term'⟩ := term_holds h'.log held'
  have agree := Consensus.matched_agree (sound.inv.log_matched n) (sound.inv.log_matched m) inside
    inside' (term.symm.trans term')
  obtain ⟨above, at_⟩ := held_entry h.log (log_indexed sound n) he
  obtain ⟨-, at'⟩ := held_entry h'.log (log_indexed sound m) he'
  rw [← same] at at'
  have read := congrArg (·[e.index - 1]?) agree
  simp only [List.getElem?_take_of_lt (show e.index - 1 < i by omega), at_, at'] at read
  obtain rfl := Option.some.inj read
  exact ⟨rfl, rfl, rfl⟩

end LogMatching

section Retention

variable {cfg : Config ID} {a a' : Abs ID} {M : StateMachine σ} {n m : ID} {p : Process ID σ}

/-- The entry is in the log, or was compacted into a snapshot that covers it. -/
def Process.Retains (M : StateMachine σ) (p : Process ID σ) (e : Entry) : Prop :=
  e ∈ p.raft.rlog.entries ∨
    (e.index ≤ p.raft.rlog.snapIndex ∧
      ∃ P, P.length = p.storage.snapIndex ∧ P[e.index - 1]? = some e ∧
        Covers M p.storage.snapshot P)

/-- The entry is on disk, or inside the snapshot that is. -/
def MemStorage.Retains (M : StateMachine σ) (s : MemStorage ID) (e : Entry) : Prop :=
  e ∈ s.entries ∨
    (e.index ≤ s.snapIndex ∧
      ∃ P, P.length = s.snapIndex ∧ P[e.index - 1]? = some e ∧ Covers M s.snapshot P)

theorem snapshot_retains (h : Node M a n p) {e : Entry} (pos : 0 < e.index)
    (there : (a.log n)[e.index - 1]? = some e) (stored : e.index ≤ p.storage.snapIndex) :
    ∃ P, P.length = p.storage.snapIndex ∧ P[e.index - 1]? = some e ∧
      Covers M p.storage.snapshot P := by
  have saved : p.storage.snapMeta.isSome := by
    cases none : p.storage.snapMeta with
    | none => simp [MemStorage.snapIndex, none] at stored; omega
    | some x => rfl
  refine ⟨_, ?_, ?_, h.durable.covers saved⟩
  · rw [List.length_take, Nat.min_eq_left (h.stored_le.trans h.commit_le)]
  · rw [List.getElem?_take_of_lt (by omega)]
    exact there

theorem node_retains (h : Node M a n p) {e : Entry} (pos : 0 < e.index)
    (there : (a.log n)[e.index - 1]? = some e) : p.Retains M e := by
  rcases Nat.lt_or_ge p.raft.rlog.snapIndex e.index with above | compacted
  · exact Or.inl (entry_held h.log there (by omega))
  · exact Or.inr ⟨compacted, snapshot_retains h pos there (compacted.trans h.snap_le)⟩

theorem storage_retains (h : Node M a n p) {e : Entry} (pos : 0 < e.index)
    (there : (a.log n)[e.index - 1]? = some e) : p.storage.Retains M e := by
  rcases Nat.lt_or_ge p.storage.snapIndex e.index with above | inside
  · exact Or.inl (entry_held h.durable.log there (Nat.le_sub_one_of_lt above))
  · exact Or.inr ⟨inside, snapshot_retains h pos there inside⟩

/-- What was committed by a leader of term `t` is in the log of a leader of a later
term, whichever of the two is looked at first. -/
theorem committed_leader (sound : Sound cfg a) (sound' : Sound cfg a')
    (run : Later a a' ∨ Later a' a) (h' : Node M a' m p) (leads : p.raft.state = .leader)
    {t : Nat} {P : List Entry} (committed : CommittedBy a t P) (later : t < p.raft.term) :
    P <+: a'.log m := by
  have leader := (h'.leads leads).leader
  obtain ⟨L, stood, pre, -⟩ := sound'.inv.leader_stood leader
  rw [← sound'.inv.leader_log leader h'.term.symm] at pre
  rcases run with after | before
  · exact (Consensus.committedBy_stood sound'.inv (Consensus.later_committedBy after committed) later
      leader stood).trans pre
  · exact (Consensus.committedBy_stood sound.inv committed later
      (Consensus.later_leader before leader)
      (Consensus.later_cand before (sound'.inv.cand_le stood) stood)).trans pre

end Retention

section Applying

variable {cfg : Config ID} {a a' : Abs ID} {M : StateMachine σ} {n m : ID} {p q : Process ID σ}

/-- The applier is about to pass `e`: to the state machine, or over it if it is a no-op. -/
def Process.Passes (p : Process ID σ) (e : Entry) : Prop :=
  ∃ rest results, p.applier = .applying (e :: rest) results

/-- An entry that is passed is committed. -/
theorem passes_committed (sound : Sound cfg a) (h : Node M a n p) {e : Entry} (passes : p.Passes e) :
    ∃ P, CommittedBy a (a.term n) P ∧ e.index ≤ P.length ∧ 0 < e.index ∧
      P[e.index - 1]? = some e := by
  obtain ⟨rest, results, stage⟩ := passes
  have there := applying_next h.working stage
  have index := log_indexed sound n _ e there
  have bound := h.working.horizon_le
  have position : p.position + (rest.length + 1) = p.horizon := by
    simp only [Process.position, Process.horizon, stage, List.length_cons]
  refine ⟨_, h.committed, ?_, by omega, ?_⟩
  · rw [List.length_take, Nat.min_eq_left h.commit_le]
    omega
  · rw [index, Nat.add_sub_cancel, List.getElem?_take_of_lt (by omega)]
    exact there

/-- So is what a stored snapshot contains, and its term is the one of the last entry. -/
theorem snapshot_committed (h : Node M a n p) {snapMeta : SnapshotMeta}
    (saved : p.storage.snapMeta = some snapMeta) :
    ∃ P, CommittedBy a (a.term n) P ∧ P.length = snapMeta.lastIncludedIndex ∧
      snapMeta.lastIncludedTerm = termAt Entry.term P snapMeta.lastIncludedIndex := by
  have index : p.storage.snapIndex = snapMeta.lastIncludedIndex := by
    rw [MemStorage.snapIndex, saved]
    rfl
  have term : p.storage.snapTerm = snapMeta.lastIncludedTerm := by
    rw [MemStorage.snapTerm, saved]
    rfl
  refine ⟨_, h.durable.committed, ?_, ?_⟩
  · rw [List.length_take, Nat.min_eq_left (h.stored_le.trans h.commit_le), index]
  · rw [← term, ← index, Consensus.termAt_take (Nat.le_refl _)]
    exact h.durable.log.snapTerm

/-- Two committed prefixes that reach an index agree there. -/
theorem snapshot_entry (sound : Sound cfg a) {t u : Nat} {P Q : List Entry}
    (hP : CommittedBy a t P) (hQ : CommittedBy a u Q) {e : Entry} (pos : 0 < e.index)
    (there : Q[e.index - 1]? = some e) (reaches : e.index ≤ P.length) :
    termAt Entry.term P e.index = e.term := by
  obtain ⟨k, index⟩ : ∃ k, e.index = k + 1 := ⟨e.index - 1, by omega⟩
  rw [index, Nat.add_sub_cancel] at there
  have inside := (List.getElem?_eq_some_iff.mp there).1
  rw [index, Consensus.termAt_succ,
    Consensus.committed_agree sound.inv hP hQ (by omega) inside, there]
  rfl

end Applying

section Samples

/-- After `electedRun`, node 0 replicates the no-op of its term to node 1, commits it,
and tells node 1. -/
def committedRun : List (Nat × Action Nat) :=
  let noop : Entry := { index := 1, term := 1, type := .noop, data := [] }
  let first : AppendEntriesRequest Nat :=
    { term := 1, leaderId := 0, prevLogIndex := 0, prevLogTerm := 0, entries := [noop]
      leaderCommit := 0 }
  let second : AppendEntriesRequest Nat :=
    { term := 1, leaderId := 0, prevLogIndex := 1, prevLogTerm := 1, entries := []
      leaderCommit := 1 }
  electedRun ++
    [(0, .replication (.replicate 1)), (0, .replication (.send (.append 1 first) 2)),
      (1, .replication (.appendEntries 2 first)),
      (0, .replication (.appendReply 1 2 first { term := 1, success := true })),
      (0, .replication (.replicate 1)), (0, .replication (.send (.append 1 second) 3)),
      (1, .replication (.appendEntries 3 second)), (0, .applier .takeWork)]

/-- After that, node 1 is elected in the next term with the vote of node 2. -/
def successionRun : List (Nat × Action Nat) :=
  let trial : RequestVoteRequest Nat :=
    { term := 2, candidateId := 1, lastLogIndex := 1, lastLogTerm := 1, preVote := true }
  let real : RequestVoteRequest Nat := { trial with preVote := false }
  [(1, .election (.tick 0 true)), (1, .election .campaign),
    (2, .election (.requestVote trial false)),
    (1, .election (.voteReply 2 trial { term := 0, voteGranted := true })),
    (1, .election (.countVotes 0)),
    (2, .election (.requestVote real false)),
    (1, .election (.voteReply 2 real { term := 2, voteGranted := true })),
    (1, .election (.countVotes 1))]

def quintet : Config Nat where
  peers := [0, 1, 2, 3, 4]
  distinct := by decide
  electionTimeoutMin := 300
  electionTimeoutMax := 600
  snapshotThreshold := 0
  maxAppendEntries := 512
  maxProposalBatch := 256

/-- Node `n` is elected with the votes of nodes `v` and `w`, which answer the trial round
with their terms. -/
def quintetElection (n v w : Nat) (trial : RequestVoteRequest Nat) (termV termW : Nat) :
    List (Nat × Action Nat) :=
  let real : RequestVoteRequest Nat := { trial with preVote := false }
  [(n, .election (.tick 0 true)), (n, .election .campaign),
    (v, .election (.requestVote trial false)), (w, .election (.requestVote trial false)),
    (n, .election (.voteReply v trial { term := termV, voteGranted := true })),
    (n, .election (.voteReply w trial { term := termW, voteGranted := true })),
    (n, .election (.countVotes 0)),
    (v, .election (.requestVote real false)), (w, .election (.requestVote real false)),
    (n, .election (.voteReply v real { term := trial.term, voteGranted := true })),
    (n, .election (.voteReply w real { term := trial.term, voteGranted := true })),
    (n, .election (.countVotes 1))]

/-- Node `l` prepares a request for node `m` and sends it, and `m` handles it. -/
def exchange (l m sentAt : Nat) (req : AppendEntriesRequest Nat) : List (Nat × Action Nat) :=
  [(l, .replication (.replicate m)), (l, .replication (.send (.append m req) sentAt)),
    (m, .replication (.appendEntries sentAt req))]

/-- A group of five that takes a snapshot after every entry. -/
def hasty : Config Nat := { quintet with snapshotThreshold := 1 }

/-- The request with which node 0 sends node 4 all that it has in term 1. -/
def unheardRequest : AppendEntriesRequest Nat :=
  { term := 1, leaderId := 0, prevLogIndex := 0, prevLogTerm := 0, leaderCommit := 1
    entries := [{ index := 1, term := 1, type := .noop, data := [] },
      { index := 2, term := 1, type := .normal, data := [5] },
      { index := 3, term := 1, type := .normal, data := [6] }] }

/-- Node 0 is elected with the votes of nodes 1 and 2, commits its no-op with them and takes on
two proposals. Node 4 stores all three entries, and its answer is lost. -/
def unheardRun : List (Nat × Action Nat) :=
  let trial : RequestVoteRequest Nat :=
    { term := 1, candidateId := 0, lastLogIndex := 0, lastLogTerm := 0, preVote := true }
  let first : AppendEntriesRequest Nat :=
    { term := 1, leaderId := 0, prevLogIndex := 0, prevLogTerm := 0
      entries := [{ index := 1, term := 1, type := .noop, data := [] }], leaderCommit := 0 }
  quintetElection 0 1 2 trial 0 0 ++
    exchange 0 1 2 first ++
    [(0, .replication (.appendReply 1 2 first { term := 1, success := true }))] ++
    exchange 0 2 3 first ++
    [(0, .replication (.appendReply 2 3 first { term := 1, success := true })),
      (0, .client (.propose 0 [5])), (0, .client (.propose 1 [6])),
      (0, .client (.appendProposals 2))] ++
    exchange 0 4 4 unheardRequest

/-- What is committed is applied; the next step of the applier captures a snapshot. -/
def applyRun : List (Nat × Action Nat) :=
  [(0, .applier .takeWork), (0, .applier .apply), (0, .applier .finishBatch)]

/-- Node 0 compacts its log up to the no-op and finds that node 4 needs a snapshot. Before it reads
one, node 1 is elected in term 2 by nodes 2 and 3, and commits its own no-op with nodes 0 and 2. -/
def deposedRun : List (Nat × Action Nat) :=
  let trial : RequestVoteRequest Nat :=
    { term := 2, candidateId := 1, lastLogIndex := 1, lastLogTerm := 1, preVote := true }
  let second : AppendEntriesRequest Nat :=
    { term := 2, leaderId := 1, prevLogIndex := 1, prevLogTerm := 1
      entries := [{ index := 2, term := 2, type := .noop, data := [] }], leaderCommit := 0 }
  [(0, .applier .snapshotTerm), (0, .applier (.saveSnapshot true true)), (0, .applier .compact),
    (0, .replication (.replicate 4))] ++
    quintetElection 1 2 3 trial 1 0 ++
    exchange 1 0 2 second ++
    [(1, .replication (.appendReply 0 2 second { term := 2, success := true }))] ++
    exchange 1 2 3 second ++
    [(1, .replication (.appendReply 2 3 second { term := 2, success := true }))] ++
    exchange 1 0 4
      { second with prevLogIndex := 2, prevLogTerm := 2, entries := [], leaderCommit := 2 } ++
    applyRun

/-- The request that node 0 then makes for node 4, under the term it led. -/
def lateRequest : InstallSnapshotRequest Nat :=
  { term := 1, leaderId := 0, lastIncludedIndex := 2, lastIncludedTerm := 2, data := [] }

def lateRun : List (Nat × Action Nat) :=
  [(0, .applier .snapshotTerm), (0, .applier (.saveSnapshot true true)),
    (0, .replication (.readSnapshot 4 1)), (0, .replication (.send (.install 4 lateRequest) 5))]

/-- On a transport that sends what was cancelled, the deposed leader's request reaches node 4 while
that is still in term 1, with a log that ends after the snapshot. -/
theorem late_snapshot :
    ∃ g g' g'' : Group Nat Unit,
      Group.play hasty idleMachine ⟨true⟩ (Group.initial idleMachine) unheardRun = some g ∧
      Group.Steps hasty idleMachine ⟨true⟩ g g' ∧
      Group.Performs hasty idleMachine ⟨true⟩ 4 (.replication (.installSnapshot 5 lateRequest))
        g' g'' ∧
      (g'.procs 4).storage.entries.getLast? = some ⟨3, 1, .normal, [6]⟩ ∧
      (g''.procs 4).raft.term = 1 ∧
      (g''.procs 4).raft.rlog = { snapIndex := 2, snapTerm := 2, entries := [] } ∧
      (g''.procs 4).storage.snapIndex = 2 ∧ (g''.procs 4).storage.entries = [] := by
  obtain ⟨g, run, g₁, applied, stage, g₂, deposed, stage', g₃, late, g₄, handled, facts⟩ :
      ∃ g, Group.play hasty idleMachine ⟨true⟩ (Group.initial idleMachine) unheardRun = some g ∧
      ∃ g₁, Group.play hasty idleMachine ⟨true⟩ g applyRun = some g₁ ∧
        (g₁.procs 0).applier = .snapshotting 1 ∧
      ∃ g₂, Group.play hasty idleMachine ⟨true⟩ (g₁.captured 0 1 []) deposedRun = some g₂ ∧
        (g₂.procs 0).applier = .snapshotting 2 ∧
      ∃ g₃, Group.play hasty idleMachine ⟨true⟩ (g₂.captured 0 2 []) lateRun = some g₃ ∧
      ∃ g₄, Group.act hasty idleMachine ⟨true⟩ g₃ 4 (.replication (.installSnapshot 5 lateRequest)) =
        some g₄ ∧
      (g₃.procs 4).storage.entries.getLast? = some ⟨3, 1, .normal, [6]⟩ ∧
      (g₄.procs 4).raft.term = 1 ∧
      (g₄.procs 4).raft.rlog = { snapIndex := 2, snapTerm := 2, entries := [] } ∧
      (g₄.procs 4).storage.snapIndex = 2 ∧ (g₄.procs 4).storage.entries = [] :=
    ⟨_, rfl, _, rfl, rfl, _, rfl, rfl, _, rfl, _, rfl, rfl, rfl, rfl, rfl, rfl⟩
  have steps : Group.Steps hasty idleMachine ⟨true⟩ g g₃ :=
    calc
      Group.Steps hasty idleMachine ⟨true⟩ g g₁ := Group.play_steps applied
      Group.Steps hasty idleMachine ⟨true⟩ _ (g₁.captured 0 1 []) :=
        .single (Group.captured_step (by decide) stage rfl)
      Group.Steps hasty idleMachine ⟨true⟩ _ g₂ := Group.play_steps deposed
      Group.Steps hasty idleMachine ⟨true⟩ _ (g₂.captured 0 2 []) :=
        .single (Group.captured_step (by decide) stage' rfl)
      Group.Steps hasty idleMachine ⟨true⟩ _ g₃ := Group.play_steps late
  exact ⟨g, g₃, g₄, run, steps, Group.act_enabled handled, facts⟩

end Samples

section Runs

variable [DecidableEq ID]

/-- Log matching with compaction, in every state of every run. -/
theorem log_matching (cfg : Config ID) (M : StateMachine σ) (T : Transport)
    (honours : T.HonoursContext) (g : Group ID σ) (reachable : Group.Reachable cfg M T g) :
    (∀ n, (g.procs n).raft.rlog.Ordered (g.procs n).raft.term) ∧
      ∀ n m, (g.procs n).raft.rlog.Matching (g.procs m).raft.rlog := by
  obtain ⟨a, rel⟩ := reachable_rel honours reachable
  exact ⟨fun n => node_ordered rel.sound (rel.nodes n),
    fun n m => node_matching rel.sound (rel.nodes n) (rel.nodes m)⟩

theorem log_matching_committed :
    ∃ g : Group Nat Unit, Group.Reachable trio idleMachine ⟨false⟩ g ∧
      (g.procs 0).raft.rlog.term 1 = some 1 ∧ (g.procs 1).raft.rlog.term 1 = some 1 ∧
      (g.procs 0).raft.rlog.Matching (g.procs 1).raft.rlog := by
  obtain ⟨g, hg, held, held'⟩ : ∃ g, Group.play trio idleMachine ⟨false⟩
      (Group.initial idleMachine) committedRun = some g ∧
      (g.procs 0).raft.rlog.term 1 = some 1 ∧ (g.procs 1).raft.rlog.term 1 = some 1 :=
    ⟨_, rfl, rfl, rfl⟩
  have reachable : Group.Reachable trio idleMachine ⟨false⟩ g := Group.play_steps hg
  exact ⟨g, reachable, held, held', (log_matching trio idleMachine ⟨false⟩ rfl g reachable).2 0 1⟩

/-- On such a transport a node can end up with a snapshot of a later term than its own. -/
theorem late_snapshot_disorders :
    ∃ g : Group Nat Unit, Group.Reachable hasty idleMachine ⟨true⟩ g ∧
      (g.procs 4).raft.term = 1 ∧ (g.procs 4).raft.rlog.snapTerm = 2 ∧
      ¬ (g.procs 4).raft.rlog.Ordered (g.procs 4).raft.term := by
  obtain ⟨g, g', g'', run, steps, handled, -, term, rlog, -⟩ := late_snapshot
  have reachable : Group.Reachable hasty idleMachine ⟨true⟩ g'' :=
    ((Group.play_steps run).trans steps).tail ⟨4, Group.performs_step handled⟩
  refine ⟨g'', reachable, term, by rw [rlog], fun ordered => ?_⟩
  rw [rlog, term] at ordered
  obtain ⟨t, t', -, there, -, below⟩ := ordered.1 2 2 (Nat.le_refl 2) (Nat.le_refl 2) (Nat.le_refl 2)
  cases there
  exact absurd below (by decide)

/-- Two states of one run, in either order, and the protocol states they refine. -/
theorem rel_run {cfg : Config ID} {M : StateMachine σ} {T : Transport} {g g' : Group ID σ}
    (honours : T.HonoursContext) (reachable : Group.Reachable cfg M T g)
    (steps : Group.Steps cfg M T g g') :
    ∃ a a', Later a a' ∧ (Rel cfg M a g ∧ ∀ m, Promises M a m (g.procs m)) ∧
      (Rel cfg M a' g' ∧ ∀ m, Promises M a' m (g'.procs m)) := by
  obtain ⟨a, rel, promises⟩ := reachable_promises honours reachable
  obtain ⟨a', later, rel', promises'⟩ := promises_steps honours rel promises steps
  exact ⟨a, a', later, ⟨rel, promises⟩, rel', promises'⟩

/-- Leader completeness: what any node knows to be committed in a term, and what it
has acknowledged, is retained by every leader of a later term, before or after. -/
theorem leader_completeness (cfg : Config ID) (M : StateMachine σ) (T : Transport)
    (honours : T.HonoursContext) (g g' : Group ID σ) (reachable : Group.Reachable cfg M T g)
    (reachable' : Group.Reachable cfg M T g')
    (run : Group.Steps cfg M T g g' ∨ Group.Steps cfg M T g' g) (n m : ID)
    (leads : (g'.procs m).raft.state = .leader)
    (later : (g.procs n).raft.term < (g'.procs m).raft.term) :
    (∀ e ∈ (g.procs n).raft.rlog.entries, e.index ≤ (g.procs n).raft.commitIndex →
      (g'.procs m).Retains M e) ∧
    ∀ q result, (q, .ok result) ∈ (g.procs n).raft.done →
      ∃ i, (g'.procs m).Retains M (q.entry i) := by
  obtain ⟨a, a', run, ⟨rel, promises⟩, rel', -⟩ : ∃ a a', (Later a a' ∨ Later a' a) ∧
      (Rel cfg M a g ∧ ∀ m, Promises M a m (g.procs m)) ∧
      (Rel cfg M a' g' ∧ ∀ m, Promises M a' m (g'.procs m)) := by
    rcases run with after | before
    · obtain ⟨a, a', later, h, h'⟩ := rel_run honours reachable after
      exact ⟨a, a', Or.inl later, h, h'⟩
    · obtain ⟨a', a, later, h', h⟩ := rel_run honours reachable' before
      exact ⟨a, a', Or.inr later, h, h'⟩
  have node := rel.nodes n
  have term := node.term
  have holds {P : List Entry} (committed : CommittedBy a (a.term n) P) : P <+: a'.log m :=
    committed_leader rel.sound rel'.sound run (rel'.nodes m) leads committed (term ▸ later)
  refine ⟨fun e he le => ?_, fun q result told => ?_⟩
  · obtain ⟨above, there⟩ := held_entry node.log (log_indexed rel.sound n) he
    refine node_retains (rel'.nodes m) (by omega) (getElem?_of_pre (holds node.committed) ?_)
    rw [List.getElem?_take_of_lt (by omega)]
    exact there
  · obtain ⟨P, -, committed, -⟩ := (promises n).done q result told
    refine ⟨P.length + 1, node_retains (rel'.nodes m) (Nat.succ_pos _) ?_⟩
    refine getElem?_of_pre (holds committed) ?_
    rw [Proposal.entry, Nat.add_sub_cancel, List.getElem?_concat_length]

theorem leader_completeness_succession :
    ∃ g g' : Group Nat Unit, Group.Reachable trio idleMachine ⟨false⟩ g ∧
      Group.Steps trio idleMachine ⟨false⟩ g g' ∧ (g'.procs 1).raft.state = .leader ∧
      ∀ e ∈ (g.procs 0).raft.rlog.entries, e.index ≤ 1 → (g'.procs 1).Retains idleMachine e := by
  obtain ⟨g, hg, g', hg', commit, leads, later⟩ : ∃ g, Group.play trio idleMachine ⟨false⟩
      (Group.initial idleMachine) committedRun = some g ∧ ∃ g', Group.play trio idleMachine ⟨false⟩
      g successionRun = some g' ∧ (g.procs 0).raft.commitIndex = 1 ∧
      (g'.procs 1).raft.state = .leader ∧ (g.procs 0).raft.term < (g'.procs 1).raft.term :=
    ⟨_, rfl, _, rfl, rfl, rfl, by decide⟩
  have reachable : Group.Reachable trio idleMachine ⟨false⟩ g := Group.play_steps hg
  have steps := Group.play_steps hg'
  have kept := leader_completeness trio idleMachine ⟨false⟩ rfl g g' reachable
    (reachable.trans steps) (Or.inl steps) 0 1 leads later
  exact ⟨g, g', reachable, steps, leads, fun e he le => kept.1 e he (commit ▸ le)⟩

/-- State machine safety: what two nodes pass at one index, at whatever points of a run,
is the same entry, and a snapshot that ends there carries its term. -/
theorem state_machine_safety (cfg : Config ID) (M : StateMachine σ) (T : Transport)
    (honours : T.HonoursContext) (g g' : Group ID σ) (reachable : Group.Reachable cfg M T g)
    (steps : Group.Steps cfg M T g g') (n m : ID) :
    (∀ e e', (g.procs n).Passes e → (g'.procs m).Passes e' → e.index = e'.index →
      e.term = e'.term ∧ e.type = e'.type ∧ e.data = e'.data) ∧
    (∀ snapMeta e, (g.procs n).storage.snapMeta = some snapMeta → (g'.procs m).Passes e →
      e.index = snapMeta.lastIncludedIndex → snapMeta.lastIncludedTerm = e.term) ∧
    ∀ snapMeta e, (g'.procs m).storage.snapMeta = some snapMeta → (g.procs n).Passes e →
      e.index = snapMeta.lastIncludedIndex → snapMeta.lastIncludedTerm = e.term := by
  obtain ⟨a, a', later, ⟨rel, -⟩, rel', -⟩ := rel_run honours reachable steps
  refine ⟨fun e e' passes passes' same => ?_, fun snapMeta e saved passes same => ?_,
    fun snapMeta e saved passes same => ?_⟩
  · obtain ⟨P, committed, size, pos, there⟩ := passes_committed rel.sound (rel.nodes n) passes
    obtain ⟨Q, committed', size', -, there'⟩ :=
      passes_committed rel'.sound (rel'.nodes m) passes'
    have agree := Consensus.committed_agree rel'.sound.inv
      (Consensus.later_committedBy later committed) committed' (i := e.index - 1) (by omega)
      (by omega)
    rw [there, same, there'] at agree
    obtain rfl := Option.some.inj agree
    exact ⟨rfl, rfl, rfl⟩
  · obtain ⟨P, committed, size, term⟩ := snapshot_committed (rel.nodes n) saved
    obtain ⟨Q, committed', size', pos, there⟩ :=
      passes_committed rel'.sound (rel'.nodes m) passes
    rw [term, ← same]
    exact snapshot_entry rel'.sound (Consensus.later_committedBy later committed) committed' pos
      there (by omega)
  · obtain ⟨P, committed, size, term⟩ := snapshot_committed (rel'.nodes m) saved
    obtain ⟨Q, committed', size', pos, there⟩ := passes_committed rel.sound (rel.nodes n) passes
    rw [term, ← same]
    exact snapshot_entry rel'.sound committed (Consensus.later_committedBy later committed') pos
      there (by omega)

theorem state_machine_safety_committed :
    ∃ (g g' : Group Nat Unit) (e e' : Entry), Group.Reachable trio idleMachine ⟨false⟩ g ∧
      Group.Steps trio idleMachine ⟨false⟩ g g' ∧ (g.procs 0).Passes e ∧ (g'.procs 1).Passes e' ∧
      e.index = 1 ∧ e'.index = 1 ∧ e.term = e'.term ∧ e.type = e'.type ∧ e.data = e'.data := by
  obtain ⟨g, hg, g', hg', passes, passes'⟩ : ∃ g, Group.play trio idleMachine ⟨false⟩
      (Group.initial idleMachine) committedRun = some g ∧ ∃ g', Group.play trio idleMachine ⟨false⟩
      g [(1, .applier .takeWork)] = some g' ∧ (g.procs 0).Passes ⟨1, 1, .noop, []⟩ ∧
      (g'.procs 1).Passes ⟨1, 1, .noop, []⟩ :=
    ⟨_, rfl, _, rfl, ⟨[], [], rfl⟩, ⟨[], [], rfl⟩⟩
  have reachable : Group.Reachable trio idleMachine ⟨false⟩ g := Group.play_steps hg
  have steps := Group.play_steps hg'
  exact ⟨g, g', _, _, reachable, steps, passes, passes', rfl, rfl,
    (state_machine_safety trio idleMachine ⟨false⟩ rfl g g' reachable steps 0 1).1 _ _ passes
      passes' rfl⟩

end Runs

end EdgeKV
