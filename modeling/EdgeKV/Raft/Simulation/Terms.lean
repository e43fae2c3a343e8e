import EdgeKV.Raft.Moves

/-!
Terms and votes: adopting a later term, granting a vote and standing for election
are moves of the protocol, and they leave a node's log and applier where they are.
-/
namespace EdgeKV

open Consensus (termAt CommittedBy Grows majority)

variable {ID σ : Type} {M : StateMachine σ} {a a' : Abs ID} {n : ID} {p : Process ID σ}

theorem durable_advance {s : MemStorage ID} (h : Durable M a n s) (grows : Grows n a a')
    (log : a'.log n = a.log n) (hs : HardState ID) (term : hs.term = a'.term n) :
    Durable M a' n { s with hs := some hs } where
  term := term
  log := log ▸ h.log
  committed := by
    rw [log]
    exact Consensus.committedBy_mono (Consensus.committedBy_grows grows h.committed)
      (grows.term n)
  covers := by rw [log]; exact h.covers

/-- A node that changes its term, and with it gives up leading. -/
theorem node_advance {r : Raft ID} {s : MemStorage ID} (h : Node M a n p)
    (grows : Grows n a a') (log : a'.log n = a.log n) (durable : Durable M a' n s)
    (stored : s.snapIndex = p.storage.snapIndex) (term : r.term = a'.term n)
    (rlog : r.rlog = p.raft.rlog) (commit : r.commitIndex = p.raft.commitIndex)
    (applied : r.lastApplied = p.raft.lastApplied)
    (pending : r.pendingSnapshot = p.raft.pendingSnapshot) (follows : r.state ≠ .leader)
    (stands : r.state = .candidate → Stands a' n r) :
    Node M a' n { p with raft := r, storage := s } where
  durable := durable
  term := term
  log := by
    change Holds (a'.log n) r.rlog
    rw [rlog, log]
    exact h.log
  snap_le := by
    change r.rlog.snapIndex ≤ s.snapIndex
    rw [rlog, stored]
    exact h.snap_le
  stored_le := by
    change s.snapIndex ≤ r.commitIndex
    rw [commit, stored]
    exact h.stored_le
  commit_le := by
    change r.commitIndex ≤ (a'.log n).length
    rw [commit, log]
    exact h.commit_le
  committed := by
    change CommittedBy a' (a'.term n) ((a'.log n).take r.commitIndex)
    rw [commit, log]
    exact Consensus.committedBy_mono (Consensus.committedBy_grows grows h.committed)
      (grows.term n)
  leads := fun state => absurd state follows
  stands := stands
  calls := fun c hc => callRel_grows grows (h.calls c hc)
  working := by
    refine working_mono h.working (log ▸ rfl) (Nat.le_of_eq commit.symm) applied pending rfl rfl
      (Nat.le_of_eq stored.symm) ?_
    change r.rlog.snapIndex = _
    rw [rlog]

theorem upToDate_of_log (h : Node M a n p) {L : List Entry} {index term : Nat}
    (len : index = L.length) (last : term = Consensus.lastTerm Entry.term L)
    (newer : p.raft.logUpToDateLocked index term = true) :
    Consensus.UpToDate Entry.term L (a.log n) := by
  simp only [Raft.logUpToDateLocked, holds_lastIndex h.log, holds_lastTerm h.log, len, last] at newer
  split at newer
  next differs => exact Or.inl (by simpa using newer)
  next same => exact Or.inr ⟨not_not.mp same, by simpa using newer⟩

theorem voteRel_grows {cfg : Config ID} (sound : Sound cfg a) (grows : Grows n a a') {req : RequestVoteRequest ID}
    {L : List Entry} (rel : VoteRel a req L) : VoteRel a' req L :=
  ⟨grows.cand (sound.inv.cand_le rel.stood) rel.stood, rel.index, rel.term⟩

variable [DecidableEq ID] {cfg : Config ID}

theorem moves_newTerm (sound : Sound cfg a) {t : Nat} (later : a.term n < t) :
    Moves cfg n [.hardState ⟨t, none⟩] a (a.newTerm n t) :=
  .still sound (.newTerm t later) (by simp [Consensus.State.newTerm]) rfl rfl

/-- Stepping down, in the same or a later term. -/
theorem becomeFollower_sim (sound : Sound cfg a) (h : Node M a n p) (t : Nat)
    (leader : Option ID) :
    Sim cfg M n a p.storage (p.raft.becomeFollowerLocked t leader).2 fun a' s' =>
      Node M a' n { p with raft := (p.raft.becomeFollowerLocked t leader).1, storage := s' } := by
  rw [Raft.becomeFollowerLocked_eq]
  by_cases newer : p.raft.term < t
  · simp only [newer, if_true]
    refine Sim.single sound h.durable fun s' stored => ?_
    cases stored
    have later : a.term n < t := h.term ▸ newer
    have moves := moves_newTerm sound later
    have grows := moves.grows sound
    have termEq : (a.newTerm n t).term n = t := by simp [Consensus.State.newTerm]
    have durable := durable_advance h.durable grows rfl ⟨t, none⟩ termEq.symm
    refine ⟨a.newTerm n t, moves, durable, ?_⟩
    refine node_advance h grows rfl durable rfl ?_ rfl rfl rfl rfl (by simp) (by simp)
    rw [termEq]
    exact Nat.max_eq_right newer.le
  · simp only [newer, if_false]
    refine Sim.idle sound h.durable ?_
    refine node_advance h (Consensus.grows_refl n a) rfl h.durable rfl ?_ rfl rfl rfl rfl
      (by simp) (by simp)
    exact (Nat.max_eq_left (Nat.le_of_not_lt newer)).trans h.term

/-- Granting a vote: the candidate stood in this term with a log that is up to date. -/
theorem grantVote_sim (sound : Sound cfg a) (h : Node M a n p) {req : RequestVoteRequest ID}
    {L : List Entry} (rel : VoteRel a req L) (term : p.raft.term = req.term) :
    Sim cfg M n a p.storage (p.raft.grantVoteLocked req).2.1 fun a' s' =>
      Node M a' n { p with raft := (p.raft.grantVoteLocked req).1, storage := s' } := by
  simp only [Raft.grantVoteLocked]
  split
  next granted =>
    refine Sim.single sound h.durable fun s' stored => ?_
    cases stored
    have current : a.term n = req.term := h.term.symm.trans term
    have step : Consensus.Step (majority cfg.peers) Entry.term n a (a.vote n req.candidateId) := by
      refine .vote req.candidateId L (current ▸ rel.stood) ?_
      exact upToDate_of_log h rel.index rel.term granted.2
    have moves : Moves cfg n [.hardState ⟨p.raft.term, some req.candidateId⟩] a
        (a.vote n req.candidateId) := by
      refine .still sound step (fun m t c => ?_) rfl rfl
      simp only [Consensus.State.vote, List.mem_singleton, StorageOp.hardState.injEq,
        HardState.mk.injEq, Option.some.injEq, h.term]
    have grows := moves.grows sound
    have durable := durable_advance h.durable grows rfl ⟨p.raft.term, some req.candidateId⟩ h.term
    refine ⟨_, moves, durable, ?_⟩
    exact
      { durable := durable
        term := h.term
        log := h.log
        snap_le := h.snap_le
        stored_le := h.stored_le
        commit_le := h.commit_le
        committed := Consensus.committedBy_grows grows h.committed
        leads := fun state =>
          ⟨(h.leads state).leader, (h.leads state).commit, (h.leads state).matched,
            (h.leads state).noop, (h.leads state).next⟩
        stands := fun state => ⟨(h.stands state).stood, (h.stands state).vacant⟩
        calls := fun c hc => callRel_grows grows (h.calls c hc)
        working := working_mono h.working rfl (Nat.le_refl _) rfl rfl rfl rfl (Nat.le_refl _) rfl }
  · exact Sim.idle sound h.durable h

theorem handleRequestVote_sim (sound : Sound cfg a) (h : Node M a n p)
    {req : RequestVoteRequest ID} (rel : req.preVote = false → ∃ L, VoteRel a req L)
    (recent : Bool) :
    Sim cfg M n a p.storage (p.raft.handleRequestVote req recent).2.1 fun a' s' =>
      Node M a' n { p with raft := (p.raft.handleRequestVote req recent).1, storage := s' } := by
  simp only [Raft.handleRequestVote]
  split
  · exact Sim.idle sound h.durable h
  next real =>
    obtain ⟨L, rel⟩ := rel (by simpa using real)
    split
    · exact Sim.idle sound h.durable h
    next current =>
      split
      next newer =>
        refine (becomeFollower_sim sound h req.term none).bind fun a' s' moves node => ?_
        refine grantVote_sim (moves.sound sound) node (voteRel_grows sound (moves.grows sound) rel) ?_
        rw [Raft.becomeFollowerLocked_eq]
        exact Nat.max_eq_right newer.le
      next same => exact grantVote_sim sound h rel (by omega)

theorem handleVoteReply_sim (sound : Sound cfg a) (h : Node M a n p) (peer : ID)
    (req : RequestVoteRequest ID) (resp : RequestVoteResponse) :
    Sim cfg M n a p.storage (p.raft.handleVoteReply peer req resp).2 fun a' s' =>
      Node M a' n { p with raft := (p.raft.handleVoteReply peer req resp).1, storage := s' } := by
  have adopted : Sim cfg M n a p.storage
      (if p.raft.term < resp.term then p.raft.becomeFollowerLocked resp.term none
        else (p.raft, [])).2 fun a' s' =>
      Node M a' n
        { p with
          raft := (if p.raft.term < resp.term then p.raft.becomeFollowerLocked resp.term none
            else (p.raft, [])).1
          storage := s' } := by
    split
    · exact becomeFollower_sim sound h resp.term none
    · exact Sim.idle sound h.durable h
  simp only [Raft.handleVoteReply]
  split
  · split
    · exact adopted.mono fun a' s' _ node => node_congr node rfl
    · exact adopted
  · exact adopted

/-- Standing for election in the next term. -/
theorem startElection_sim (sound : Sound cfg a) (h : Node M a n p) :
    Sim cfg M n a p.storage (p.raft.startElection n).2.1 fun a' s' =>
      Node M a' n { p with raft := (p.raft.startElection n).1, storage := s' } ∧
        VoteRel a' (p.raft.startElection n).2.2 (a.log n) := by
  refine Sim.single sound h.durable fun s' stored => ?_
  cases stored
  have next : p.raft.term + 1 = a.term n + 1 := by rw [h.term]
  have moves : Moves cfg n [.hardState ⟨p.raft.term + 1, some n⟩] a (a.campaign n) := by
    refine .still sound .campaign (fun m t c => ?_) rfl rfl
    simp only [Consensus.State.campaign, List.mem_singleton, StorageOp.hardState.injEq,
      HardState.mk.injEq, Option.some.injEq, next]
  have grows := moves.grows sound
  have termEq : (a.campaign n).term n = p.raft.term + 1 := by simp [Consensus.State.campaign, next]
  have stood : (a.campaign n).cand (p.raft.term + 1) n = some (a.log n) := by
    simp [Consensus.State.campaign, next]
  have vacant : (a.campaign n).leader (p.raft.term + 1) ≠ some n := by
    intro led
    obtain ⟨L, cand, -⟩ := sound.inv.leader_stood led
    have := sound.inv.cand_le cand
    omega
  have durable := durable_advance h.durable grows rfl ⟨p.raft.term + 1, some n⟩ termEq.symm
  refine ⟨_, moves, durable, ?_, stood, ?_, ?_⟩
  · exact node_advance h grows rfl durable rfl termEq.symm rfl rfl rfl rfl (by simp [Raft.startElection])
      fun _ => ⟨stood, vacant⟩
  · exact holds_lastIndex h.log
  · exact holds_lastTerm h.log

theorem beginCampaign_sim (sound : Sound cfg a) (h : Node M a n p) (skipPreVote : Bool) :
    Sim cfg M n a p.storage (p.raft.beginCampaign n skipPreVote).2.1 fun a' s' =>
      Node M a' n { p with raft := (p.raft.beginCampaign n skipPreVote).1, storage := s' } ∧
        ∀ req, (p.raft.beginCampaign n skipPreVote).2.2 = some req → req.preVote = false →
          ∃ L, VoteRel a' req L := by
  simp only [Raft.beginCampaign]
  split
  · exact Sim.idle sound h.durable ⟨node_congr h rfl, fun req none => by cases none⟩
  · split
    · refine (startElection_sim sound h).mono fun a' s' _ post => ⟨post.1, fun req asked _ => ?_⟩
      cases asked
      exact ⟨_, post.2⟩
    · refine Sim.idle sound h.durable ⟨node_congr h rfl, fun req asked real => ?_⟩
      cases asked
      cases real

theorem afterPreVote_sim (sound : Sound cfg a) (h : Node M a n p) (req : RequestVoteRequest ID) :
    Sim cfg M n a p.storage (p.raft.afterPreVote n req).2.1 fun a' s' =>
      Node M a' n { p with raft := (p.raft.afterPreVote n req).1, storage := s' } ∧
        ∀ real, (p.raft.afterPreVote n req).2.2 = some real → real.preVote = false →
          ∃ L, VoteRel a' real L := by
  simp only [Raft.afterPreVote]
  split
  · exact Sim.idle sound h.durable ⟨node_congr h rfl, fun real none => by cases none⟩
  · refine (startElection_sim sound h).mono fun a' s' _ post => ⟨post.1, fun real asked _ => ?_⟩
    cases asked
    exact ⟨_, post.2⟩

end EdgeKV
