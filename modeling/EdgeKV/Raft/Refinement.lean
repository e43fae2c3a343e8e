import EdgeKV.Raft.Durable
import EdgeKV.Raft.ElectionSafety
import EdgeKV.Consensus.Safety

/-!
How a replica and its messages stand to the abstract protocol. The abstract state
keeps every log in full; a replica holds its own log compacted, in memory and on
disk, and each message in flight speaks about the ledger of its term. `Node` also
says where the applier has taken the state machine: to a prefix of the log, and
never past what is committed.
-/
namespace EdgeKV

open Consensus (termAt CommittedBy Grows majority)

variable {ID σ : Type}

/-- The abstract state of a group: full logs over the group's entries. -/
abbrev Abs (ID : Type) := Consensus.State ID Entry

section Machine

variable (M : StateMachine σ)

/-- The machine has been taken through the entries of `L` in order and once each,
by applying them or by restoring a snapshot that was. -/
inductive Reflects : σ → List Entry → Prop
  | init : Reflects M.init []
  | apply {s s' : σ} {L : List Entry} {e : Entry} {result : Bytes} (h : Reflects s L)
      (normal : e.type = .normal) (applied : M.apply s e.index e.data = some (s', result)) :
      Reflects s' (L ++ [e])
  | skip {s : σ} {L : List Entry} {e : Entry} (h : Reflects s L) (noop : e.type = .noop) :
      Reflects s (L ++ [e])
  | restore {s s' : σ} {L : List Entry} {data : Bytes} (h : Reflects s L)
      (captured : M.snapshot s data) (restored : M.restore data = some s') : Reflects s' L

/-- `data` is a snapshot of a machine that reflects `L`. -/
def Covers (data : Bytes) (L : List Entry) : Prop := ∃ s, Reflects M s L ∧ M.snapshot s data

theorem covers_restore {data : Bytes} {L : List Entry} {s : σ} (h : Covers M data L)
    (restored : M.restore data = some s) : Reflects M s L := by
  obtain ⟨s₀, reflects, captured⟩ := h
  exact .restore reflects captured restored

end Machine

/-- What an `AppendEntries` request says about the ledger of its term. -/
structure AppendRel (a : Abs ID) (req : AppendEntriesRequest ID) : Prop where
  leader : a.leader req.term = some req.leaderId
  len : req.prevLogIndex + req.entries.length ≤ (a.ledger req.term).length
  entries : req.entries =
    ((a.ledger req.term).take (req.prevLogIndex + req.entries.length)).drop req.prevLogIndex
  prevTerm : req.prevLogTerm = termAt Entry.term (a.ledger req.term) req.prevLogIndex
  commit_le : req.leaderCommit ≤ (a.ledger req.term).length
  committed : CommittedBy a req.term ((a.ledger req.term).take req.leaderCommit)

/-- An `InstallSnapshot` request carries a committed prefix of the log. -/
structure InstallRel (M : StateMachine σ) (a : Abs ID) (req : InstallSnapshotRequest ID) :
    Prop where
  leader : a.leader req.term = some req.leaderId
  len : req.lastIncludedIndex ≤ (a.ledger req.term).length
  lastTerm : req.lastIncludedTerm =
    termAt Entry.term (a.ledger req.term) req.lastIncludedIndex
  committed : CommittedBy a req.term ((a.ledger req.term).take req.lastIncludedIndex)
  covers : Covers M req.data ((a.ledger req.term).take req.lastIncludedIndex)

/-- A candidate's request describes the log it stands with. -/
structure VoteRel (a : Abs ID) (req : RequestVoteRequest ID) (L : List Entry) : Prop where
  stood : a.cand req.term req.candidateId = some L
  index : req.lastLogIndex = L.length
  term : req.lastLogTerm = Consensus.lastTerm Entry.term L

def MsgRel (M : StateMachine σ) (a : Abs ID) : Msg ID → Prop
  | .requestVote _ req => req.preVote = false → ∃ L, VoteRel a req L
  | .appendEntries _ _ req => AppendRel a req
  | .appendReply src _ _ req resp => resp.success = true →
      req.prevLogIndex + req.entries.length ≤ a.acked src req.term
  | .installSnapshot _ _ req => InstallRel M a req
  | .installReply src _ _ req resp => resp.term ≤ req.term →
      req.lastIncludedIndex ≤ a.acked src req.term
  | _ => True

/-- A prepared call is sound as long as its node has not moved past its term: a
snapshot may be read after the node was deposed, but it is then never sent. -/
def CallRel (M : StateMachine σ) (a : Abs ID) (n : ID) : Call ID → Prop
  | .append _ req => AppendRel a req
  | .needSnapshot _ term => a.leader term = some n
  | .install _ req => a.leader req.term = some n ∧ req.leaderId = n ∧
      (a.term n ≤ req.term → InstallRel M a req)

/-- What is durable at node `n`. -/
structure Durable (M : StateMachine σ) (a : Abs ID) (n : ID) (s : MemStorage ID) : Prop where
  term : s.hardState.term = a.term n
  log : Holds (a.log n) s.log
  committed : CommittedBy a (a.term n) ((a.log n).take s.snapIndex)
  covers : s.snapMeta.isSome → Covers M s.snapshot ((a.log n).take s.snapIndex)

structure Leads (a : Abs ID) (n : ID) (r : Raft ID) : Prop where
  leader : a.leader r.term = some n
  commit : a.commit r.term ≤ r.commitIndex
  matched : ∀ p, r.matchIndex p ≤ a.acked p r.term
  noop : termAt Entry.term (a.log n) r.noopIndex = r.term
  next : ∀ p, r.nextIndex p ≤ (a.log n).length + 1

structure Stands (a : Abs ID) (n : ID) (r : Raft ID) : Prop where
  stood : a.cand r.term n = some (a.log n)
  vacant : a.leader r.term ≠ some n

/-- The index up to which the state machine has been taken. -/
def Process.position (p : Process ID σ) : Nat :=
  match p.applier with
  | .restored snap => snap.lastIncludedIndex
  | .applying _ results => p.raft.lastApplied + results.length
  | _ => p.raft.lastApplied

/-- The index that the state machine will have reached when the applier is done
with what it has in hand. -/
def Process.horizon (p : Process ID σ) : Nat :=
  match p.applier with
  | .restoring snap | .restored snap => snap.lastIncludedIndex
  | .applying entries results => p.raft.lastApplied + results.length + entries.length
  | _ => p.raft.lastApplied

/-- The index that it will have reached after a snapshot that is still pending. -/
def Process.reach (p : Process ID σ) : Nat :=
  max p.horizon ((p.raft.pendingSnapshot.map (·.lastIncludedIndex)).getD 0)

/-- What the applier has in hand agrees with the log `L`. -/
def Stage (M : StateMachine σ) (L : List Entry) (p : Process ID σ) : Applier ID → Prop
  | .waiting => True
  | .restoring snap => p.raft.lastApplied < snap.lastIncludedIndex ∧
      Covers M snap.data (L.take snap.lastIncludedIndex)
  | .restored snap => p.raft.lastApplied < snap.lastIncludedIndex
  | .applying entries results => 0 < results.length + entries.length ∧
      results.map Prod.fst ++ entries = (L.take p.horizon).drop p.raft.lastApplied
  | .snapshotting index => index = p.raft.lastApplied
  | .captured index data => index = p.raft.lastApplied ∧ Covers M data (L.take index)
  | .saving index term data => index = p.raft.lastApplied ∧ Covers M data (L.take index) ∧
      term = termAt Entry.term L index
  | .compacting index term => index = p.raft.lastApplied ∧ index ≤ p.storage.snapIndex ∧
      term = termAt Entry.term L index

/-- Where the applier stands relative to the log `L` of its node. -/
structure Working (M : StateMachine σ) (L : List Entry) (p : Process ID σ) : Prop where
  applied_le : p.raft.lastApplied ≤ p.raft.commitIndex
  horizon_le : p.horizon ≤ p.raft.commitIndex
  reflects : Reflects M p.machine (L.take p.position)
  stage : Stage M L p p.applier
  pending : ∀ {snap}, p.raft.pendingSnapshot = some snap →
    p.horizon < snap.lastIncludedIndex ∧ snap.lastIncludedIndex ≤ p.raft.commitIndex ∧
    Covers M snap.data (L.take snap.lastIncludedIndex)
  reach : p.raft.rlog.snapIndex ≤ p.reach

structure Node (M : StateMachine σ) (a : Abs ID) (n : ID) (p : Process ID σ) : Prop where
  durable : Durable M a n p.storage
  term : p.raft.term = a.term n
  log : Holds (a.log n) p.raft.rlog
  snap_le : p.raft.rlog.snapIndex ≤ p.storage.snapIndex
  stored_le : p.storage.snapIndex ≤ p.raft.commitIndex
  commit_le : p.raft.commitIndex ≤ (a.log n).length
  committed : CommittedBy a (a.term n) ((a.log n).take p.raft.commitIndex)
  leads : p.raft.state = .leader → Leads a n p.raft
  stands : p.raft.state = .candidate → Stands a n p.raft
  calls : ∀ c ∈ p.calls, CallRel M a n c
  working : Working M (a.log n) p

/-- The abstract state is one the protocol can be in, and its entries know their
positions. -/
structure Sound (cfg : Config ID) (a : Abs ID) : Prop where
  inv : Consensus.Inv (majority cfg.peers) Entry.term a
  indexed : ∀ t, Indexed (a.ledger t)

/-- The replicas of a group, their messages and the votes they have saved stand as
one abstract state says. -/
structure Rel (cfg : Config ID) [DecidableEq ID] (M : StateMachine σ) (a : Abs ID)
    (g : Group ID σ) : Prop where
  sound : Sound cfg a
  ballots : Ballots cfg a.voted g
  nodes : ∀ n, Node M a n (g.procs n)
  msgs : ∀ m ∈ g.net, MsgRel M a m

section Stability

variable {M : StateMachine σ} {a a' : Abs ID} {n m : ID}

theorem ledger_take {t i : Nat} (grows : Grows n a a') (len : i ≤ (a.ledger t).length) :
    (a'.ledger t).take i = (a.ledger t).take i :=
  Consensus.take_eq_of_common List.prefix_rfl (grows.ledger t)
    (len.trans (grows.ledger t).length_le) len

theorem ledger_termAt {t i : Nat} (grows : Grows n a a') (len : i ≤ (a.ledger t).length) :
    termAt Entry.term (a'.ledger t) i = termAt Entry.term (a.ledger t) i :=
  (Consensus.termAt_eq_of_pre (grows.ledger t) len).symm

theorem appendRel_grows (grows : Grows n a a') {req : AppendEntriesRequest ID}
    (h : AppendRel a req) : AppendRel a' req where
  leader := grows.leader h.leader
  len := h.len.trans (grows.ledger _).length_le
  entries := by rw [ledger_take grows h.len]; exact h.entries
  prevTerm := by rw [ledger_termAt grows (by have := h.len; omega)]; exact h.prevTerm
  commit_le := h.commit_le.trans (grows.ledger _).length_le
  committed := by
    rw [ledger_take grows h.commit_le]
    exact Consensus.committedBy_grows grows h.committed

theorem installRel_grows (grows : Grows n a a') {req : InstallSnapshotRequest ID}
    (h : InstallRel M a req) : InstallRel M a' req where
  leader := grows.leader h.leader
  len := h.len.trans (grows.ledger _).length_le
  lastTerm := by rw [ledger_termAt grows h.len]; exact h.lastTerm
  committed := by
    rw [ledger_take grows h.len]
    exact Consensus.committedBy_grows grows h.committed
  covers := by rw [ledger_take grows h.len]; exact h.covers

theorem msgRel_grows {cfg : Config ID} (sound : Sound cfg a) (grows : Grows n a a') {m : Msg ID}
    (h : MsgRel M a m) : MsgRel M a' m := by
  cases m with
  | requestVote dst req =>
      intro real
      obtain ⟨L, stood, index, term⟩ := h real
      exact ⟨L, grows.cand (sound.inv.cand_le stood) stood, index, term⟩
  | voteReply src dst req resp => trivial
  | appendEntries dst sentAt req => exact appendRel_grows grows h
  | appendReply src dst sentAt req resp =>
      exact fun yes => (h yes).trans (grows.acked src req.term)
  | installSnapshot dst sentAt req => exact installRel_grows grows h
  | installReply src dst sentAt req resp =>
      exact fun same => (h same).trans (grows.acked src req.term)
  | timeoutNow dst req => trivial

theorem callRel_grows (grows : Grows n a a') {c : Call ID} (h : CallRel M a m c) :
    CallRel M a' m c := by
  cases c with
  | append peer req => exact appendRel_grows grows h
  | needSnapshot peer term => exact grows.leader h
  | install peer req =>
      refine ⟨grows.leader h.1, h.2.1, fun current => ?_⟩
      exact installRel_grows grows (h.2.2 ((grows.term m).trans current))

theorem durable_other (grows : Grows n a a') (other : m ≠ n) {s : MemStorage ID}
    (h : Durable M a m s) : Durable M a' m s := by
  obtain ⟨term, log, committed, covers⟩ := h
  rw [← grows.otherTerm m other] at term committed
  rw [← grows.otherLog m other] at log committed covers
  exact ⟨term, log, Consensus.committedBy_grows grows committed, covers⟩

/-- A node that took no part keeps its place while another one moves. -/
theorem node_other (grows : Grows n a a') (other : m ≠ n)
    {p : Process ID σ} (h : Node M a m p) : Node M a' m p := by
  have sameTerm := grows.otherTerm m other
  have sameLog := grows.otherLog m other
  exact
    { durable := durable_other grows other h.durable
      term := h.term.trans sameTerm.symm
      log := sameLog ▸ h.log
      snap_le := h.snap_le
      stored_le := h.stored_le
      commit_le := sameLog ▸ h.commit_le
      committed := by
        rw [sameTerm, sameLog]
        exact Consensus.committedBy_grows grows h.committed
      leads := fun state => by
        obtain ⟨leader, commit, matched, noop, next⟩ := h.leads state
        refine ⟨grows.leader leader, ?_, fun p => (matched p).trans (grows.acked p _), ?_, ?_⟩
        · rw [grows.otherCommit other leader]
          exact commit
        · rw [sameLog]
          exact noop
        · rw [sameLog]
          exact next
      stands := fun state => by
        obtain ⟨stood, vacant⟩ := h.stands state
        refine ⟨?_, fun led => vacant (grows.otherLeader other led)⟩
        rw [sameLog]
        exact grows.cand (h.term ▸ Nat.le_refl _) stood
      calls := fun c hc => callRel_grows grows (h.calls c hc)
      working := sameLog ▸ h.working }

end Stability

section Soundness

variable {cfg : Config ID} {a : Abs ID} (sound : Sound cfg a)
include sound

theorem leader_term_pos {t : Nat} {m : ID} (led : a.leader t = some m) : 0 < t := by
  obtain ⟨L, stood, -⟩ := sound.inv.leader_stood led
  exact Nat.lt_of_le_of_lt (Nat.zero_le _) (sound.inv.cand_term stood 0)

theorem matched_indexed {L : List Entry} (h : Consensus.Matched Entry.term a L) : Indexed L := by
  cases L with
  | nil => intro k e he; cases he
  | cons e L =>
      have pre := h (e :: L).length (by simp) le_rfl
      rw [List.take_length] at pre
      exact indexed_pre (sound.indexed _) pre

theorem log_indexed (m : ID) : Indexed (a.log m) :=
  matched_indexed sound (sound.inv.log_matched m)

end Soundness

/-- A process without what the refinement does not speak about. -/
def Process.core (p : Process ID σ) : Process ID σ :=
  { p with
    raft :=
      { p.raft with
        votedFor := none
        leaderID := none
        campaigning := none
        ackedSendTime := fun _ => 0
        transferTarget := none
        waiters := []
        done := []
        stopped := false }
    reader := .waiting
    proposeCh := []
    readCh := []
    readDone := []
    transfers := []
    clock := 0 }

section Congruence

variable {M : StateMachine σ} {a : Abs ID} {n : ID} {L L' : List Entry} {p p' : Process ID σ}

theorem position_congr (applier : p'.applier = p.applier)
    (applied : p'.raft.lastApplied = p.raft.lastApplied) : p'.position = p.position := by
  simp only [Process.position, applier, applied]

theorem horizon_congr (applier : p'.applier = p.applier)
    (applied : p'.raft.lastApplied = p.raft.lastApplied) : p'.horizon = p.horizon := by
  simp only [Process.horizon, applier, applied]

theorem position_le_horizon (h : Working M L p) : p.position ≤ p.horizon := by
  have stage := h.stage
  unfold Process.position Process.horizon
  cases happ : p.applier with
  | restoring snap => rw [happ] at stage; exact stage.1.le
  | applying entries results => simp
  | _ => exact Nat.le_refl _

theorem applied_le_position (h : Working M L p) : p.raft.lastApplied ≤ p.position := by
  have stage := h.stage
  unfold Process.position
  cases happ : p.applier with
  | restored snap => rw [happ] at stage; exact Nat.le_of_lt stage
  | applying entries results => exact Nat.le_add_right _ _
  | _ => exact Nat.le_refl _

/-- The applier's place does not depend on what happens to the log beyond the
commit index, and a snapshot may be handed to it at any time. -/
theorem working_update (h : Working M L p)
    (same : L'.take p.raft.commitIndex = L.take p.raft.commitIndex)
    (commit : p.raft.commitIndex ≤ p'.raft.commitIndex)
    (applied : p'.raft.lastApplied = p.raft.lastApplied)
    (machine : p'.machine = p.machine) (applier : p'.applier = p.applier)
    (stored : p.storage.snapIndex ≤ p'.storage.snapIndex)
    (pending : ∀ snap, p'.raft.pendingSnapshot = some snap →
      p.raft.pendingSnapshot = some snap ∨
        (p.horizon < snap.lastIncludedIndex ∧ snap.lastIncludedIndex ≤ p'.raft.commitIndex ∧
          Covers M snap.data (L'.take snap.lastIncludedIndex)))
    (reach : p'.raft.rlog.snapIndex ≤ p'.reach) : Working M L' p' := by
  have below {i : Nat} (hi : i ≤ p.raft.commitIndex) : L'.take i = L.take i := by
    have := congrArg (List.take i) same
    rwa [List.take_take, List.take_take, Nat.min_eq_left hi] at this
  have termBelow {i : Nat} (hi : i ≤ p.raft.commitIndex) :
      termAt Entry.term L' i = termAt Entry.term L i := by
    rw [← Consensus.termAt_take (Nat.le_refl i), below hi, Consensus.termAt_take (Nat.le_refl i)]
  have horizon := horizon_congr applier applied
  have position := position_congr applier applied
  have reached := position_le_horizon h
  have bound := h.horizon_le
  refine ⟨?_, ?_, ?_, ?_, ?_, reach⟩
  · rw [applied]; exact h.applied_le.trans commit
  · rw [horizon]; exact bound.trans commit
  · rw [machine, position, below (reached.trans bound)]; exact h.reflects
  · have stage := h.stage
    have done := h.applied_le
    rw [applier]
    cases happ : p.applier with
    | waiting => trivial
    | restoring snap' =>
        rw [happ] at stage
        have le : snap'.lastIncludedIndex ≤ p.raft.commitIndex := by
          simpa [Process.horizon, happ] using bound
        exact ⟨applied ▸ stage.1, below le ▸ stage.2⟩
    | restored snap' => rw [happ] at stage; exact applied.trans_lt stage
    | applying entries results =>
        rw [happ] at stage
        refine ⟨stage.1, ?_⟩
        rw [horizon, applied, below bound]
        exact stage.2
    | snapshotting index => rw [happ] at stage; exact stage.trans applied.symm
    | captured index data =>
        rw [happ] at stage
        exact ⟨applied ▸ stage.1, (below (stage.1.trans_le done)) ▸ stage.2⟩
    | saving index term data =>
        rw [happ] at stage
        have le := stage.1.trans_le done
        exact ⟨applied ▸ stage.1, below le ▸ stage.2.1, stage.2.2.trans (termBelow le).symm⟩
    | compacting index term =>
        rw [happ] at stage
        have le := stage.1.trans_le done
        exact ⟨applied ▸ stage.1, stage.2.1.trans stored, stage.2.2.trans (termBelow le).symm⟩
  · intro snap' hsnap
    rw [horizon]
    rcases pending snap' hsnap with old | new
    · obtain ⟨later, inside, covers⟩ := h.pending old
      exact ⟨later, inside.trans commit, below inside ▸ covers⟩
    · exact new

theorem working_mono (h : Working M L p)
    (same : L'.take p.raft.commitIndex = L.take p.raft.commitIndex)
    (commit : p.raft.commitIndex ≤ p'.raft.commitIndex)
    (applied : p'.raft.lastApplied = p.raft.lastApplied)
    (pending : p'.raft.pendingSnapshot = p.raft.pendingSnapshot)
    (machine : p'.machine = p.machine) (applier : p'.applier = p.applier)
    (stored : p.storage.snapIndex ≤ p'.storage.snapIndex)
    (snap : p'.raft.rlog.snapIndex = p.raft.rlog.snapIndex) : Working M L' p' := by
  refine working_update h same commit applied machine applier stored
    (fun snap' hsnap => Or.inl (pending ▸ hsnap)) ?_
  rw [snap, Process.reach, horizon_congr applier applied, pending]
  exact h.reach

/-- Only the core of a process matters. -/
theorem node_core : Node M a n p.core ↔ Node M a n p := by
  have leads {r r' : Raft ID} (h : Leads a n r) (term : r'.term = r.term)
      (commit : r'.commitIndex = r.commitIndex) (matched : r'.matchIndex = r.matchIndex)
      (noop : r'.noopIndex = r.noopIndex) (next : r'.nextIndex = r.nextIndex) : Leads a n r' := by
    refine ⟨term ▸ h.leader, ?_, ?_, ?_, next ▸ h.next⟩
    · rw [term, commit]; exact h.commit
    · rw [term, matched]; exact h.matched
    · rw [term, noop]; exact h.noop
  constructor <;> intro h
  · exact
      { durable := h.durable, term := h.term, log := h.log, snap_le := h.snap_le
        stored_le := h.stored_le, commit_le := h.commit_le, committed := h.committed
        leads := fun state => leads (h.leads state) rfl rfl rfl rfl rfl
        stands := fun state => ⟨(h.stands state).stood, (h.stands state).vacant⟩
        calls := h.calls
        working := working_mono h.working rfl (Nat.le_refl _) rfl rfl rfl rfl (Nat.le_refl _) rfl }
  · exact
      { durable := h.durable, term := h.term, log := h.log, snap_le := h.snap_le
        stored_le := h.stored_le, commit_le := h.commit_le, committed := h.committed
        leads := fun state => leads (h.leads state) rfl rfl rfl rfl rfl
        stands := fun state => ⟨(h.stands state).stood, (h.stands state).vacant⟩
        calls := h.calls
        working := working_mono h.working rfl (Nat.le_refl _) rfl rfl rfl rfl (Nat.le_refl _) rfl }

theorem node_congr (h : Node M a n p) (same : p'.core = p.core) : Node M a n p' := by
  rw [← node_core] at h ⊢
  rw [same]
  exact h

end Congruence
end EdgeKV
