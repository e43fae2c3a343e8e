import EdgeKV.Raft.Safety

/-!
The indexes of a replica. They stand in a fixed order, and while its process lives
they only grow; so the log is never asked for what it does not hold.
-/
namespace EdgeKV

open Consensus (termAt)

variable {ID σ : Type}

/-- Neither the commit index nor the snapshot index of the log falls. -/
structure Onward (r r' : Raft ID) : Prop where
  commit : r.commitIndex ≤ r'.commitIndex
  snap : r.rlog.snapIndex ≤ r'.rlog.snapIndex

namespace Onward

variable {r r' r'' : Raft ID}

theorem of_eq (commit : r'.commitIndex = r.commitIndex)
    (snap : r'.rlog.snapIndex = r.rlog.snapIndex) : Onward r r' :=
  ⟨commit.ge, snap.ge⟩

theorem refl (r : Raft ID) : Onward r r := of_eq rfl rfl

theorem trans (h : Onward r r') (h' : Onward r' r'') : Onward r r'' :=
  ⟨h.commit.trans h'.commit, h.snap.trans h'.snap⟩

/-- A region that starts from `r` with other fields set. -/
theorem after (h : Onward r' r'') (commit : r'.commitIndex = r.commitIndex)
    (snap : r'.rlog.snapIndex = r.rlog.snapIndex) : Onward r r'' :=
  (of_eq commit snap).trans h

end Onward

section Regions

variable (r : Raft ID)

theorem becomeFollowerLocked_onward (term : Nat) (leader : Option ID) :
    Onward r (r.becomeFollowerLocked term leader).1 := by
  rw [Raft.becomeFollowerLocked_eq]
  exact .of_eq rfl rfl

theorem beginCampaign_onward (self : ID) (skipPreVote : Bool) :
    Onward r (r.beginCampaign self skipPreVote).1 := by
  simp only [Raft.beginCampaign]
  split
  · exact .of_eq rfl rfl
  · split <;> exact .of_eq rfl rfl

theorem afterPreVote_onward (self : ID) (req : RequestVoteRequest ID) :
    Onward r (r.afterPreVote self req).1 := by
  simp only [Raft.afterPreVote]
  split <;> exact .of_eq rfl rfl

theorem learnCommit_onward (req : AppendEntriesRequest ID) : Onward r (r.learnCommit req) := by
  simp only [Raft.learnCommit]
  split
  next later => exact ⟨later.le, Nat.le_refl _⟩
  · exact .refl r

theorem mergeEntries_snapIndex {l kept : RaftLog} {entries fresh : List Entry}
    (h : l.mergeEntries entries = some (kept, fresh)) : kept.snapIndex = l.snapIndex := by
  induction entries with
  | nil => cases h; rfl
  | cons e es ih =>
      rw [RaftLog.mergeEntries] at h
      split at h
      · split at h
        · exact ih h
        · obtain ⟨l', cut, eq⟩ := Option.map_eq_some_iff.mp h
          cases eq
          simp only [RaftLog.truncateFrom] at cut
          split at cut
          · cases cut
          · split at cut <;> (cases cut; rfl)
      · cases h; rfl

theorem storeEntries_onward {req : AppendEntriesRequest ID} {entries : List Entry} {r' : Raft ID}
    {resp : AppendEntriesResponse} (h : (r.storeEntries req entries).2 = some (r', resp)) :
    Onward r r' := by
  simp only [Raft.storeEntries] at h
  split at h
  · cases h
  next merged =>
    split at h
    · cases h
    next appended =>
      cases h
      have kept := mergeEntries_snapIndex merged
      refine (learnCommit_onward _ req).after rfl ?_
      rw [append_eq appended]
      exact kept

theorem checkEntries_onward {req : AppendEntriesRequest ID} {prevIndex : Nat}
    {entries : List Entry} {r' : Raft ID} {resp : AppendEntriesResponse}
    (h : (r.checkEntries req prevIndex entries).2 = some (r', resp)) : Onward r r' := by
  simp only [Raft.checkEntries] at h
  split at h
  · cases h; exact .refl r
  · split at h
    · cases h; exact .refl r
    · exact storeEntries_onward r h

theorem appendEntriesLocked_onward {req : AppendEntriesRequest ID} {r' : Raft ID}
    {resp : AppendEntriesResponse} (h : (r.appendEntriesLocked req).2 = some (r', resp)) :
    Onward r r' := by
  simp only [Raft.appendEntriesLocked] at h
  split at h
  · split at h
    · cases h; exact .refl r
    · exact checkEntries_onward r h
  · exact checkEntries_onward r h

/-- A snapshot is only installed beyond the commit index, hence beyond the last one. -/
theorem installSnapshotLocked_onward (req : InstallSnapshotRequest ID)
    (le : r.rlog.snapIndex ≤ r.commitIndex) : Onward r (r.installSnapshotLocked req).1 := by
  simp only [Raft.installSnapshotLocked]
  split
  · exact .refl r
  next later =>
    have later := Nat.lt_of_not_le later
    refine ⟨later.le, ?_⟩
    simp only
    split
    · rw [compact_snapIndex]
      exact Nat.le_max_left _ _
    · exact le.trans later.le

theorem stop_onward : Onward r r.stop := by
  simp only [Raft.stop]
  split
  · exact .refl r
  · exact .of_eq rfl rfl

variable [DecidableEq ID]

theorem followLocked_eq (term : Nat) (leader : ID) :
    (r.followLocked term leader).1.commitIndex = r.commitIndex ∧
      (r.followLocked term leader).1.rlog = r.rlog := by
  simp only [Raft.followLocked]
  split
  · rw [Raft.becomeFollowerLocked_eq]
    exact ⟨rfl, rfl⟩
  · exact ⟨rfl, rfl⟩

theorem advanceCommitLocked_onward (cfg : Config ID) (self : ID) :
    Onward r (r.advanceCommitLocked cfg self) := by
  rw [Raft.advanceCommitLocked_eq]
  refine ⟨?_, Nat.le_refl _⟩
  simp only
  split
  next later => exact later.1.le
  · exact Nat.le_refl _

theorem becomeLeaderLocked_onward {cfg : Config ID} {self : ID} {now : Nat} {r' : Raft ID}
    (h : (r.becomeLeaderLocked cfg self now).2 = some r') : Onward r r' := by
  simp only [Raft.becomeLeaderLocked] at h
  split at h
  · cases h
  next appended =>
    cases h
    refine (advanceCommitLocked_onward _ cfg self).after rfl ?_
    rw [append_eq appended]

theorem afterElection_onward {cfg : Config ID} {self : ID} {req : RequestVoteRequest ID}
    {now : Nat} {r' : Raft ID} (h : (r.afterElection cfg self req now).2 = some r') :
    Onward r r' := by
  simp only [Raft.afterElection] at h
  split at h
  · exact (becomeLeaderLocked_onward _ h).after rfl rfl
  · cases h; exact .of_eq rfl rfl

theorem handleRequestVote_onward (req : RequestVoteRequest ID) (recent : Bool) :
    Onward r (r.handleRequestVote req recent).1 := by
  have granted (r : Raft ID) : Onward r (r.grantVoteLocked req).1 := by
    simp only [Raft.grantVoteLocked]
    split <;> exact .of_eq rfl rfl
  simp only [Raft.handleRequestVote]
  split
  · exact .refl r
  · split
    · exact .refl r
    · split
      · exact (becomeFollowerLocked_onward r req.term none).trans (granted _)
      · exact granted r

theorem handleVoteReply_onward (peer : ID) (req : RequestVoteRequest ID)
    (resp : RequestVoteResponse) : Onward r (r.handleVoteReply peer req resp).1 := by
  have adopted : Onward r
      (if r.term < resp.term then r.becomeFollowerLocked resp.term none else (r, [])).1 := by
    split
    · exact becomeFollowerLocked_onward r resp.term none
    · exact .refl r
  simp only [Raft.handleVoteReply]
  split
  · split
    · exact adopted.trans (.of_eq rfl rfl)
    · exact adopted
  · exact adopted

theorem handleAppendEntries_onward {req : AppendEntriesRequest ID} {r' : Raft ID}
    {resp : AppendEntriesResponse} (h : (r.handleAppendEntries req).2 = some (r', resp)) :
    Onward r r' := by
  simp only [Raft.handleAppendEntries] at h
  split at h
  · cases h; exact .refl r
  · obtain ⟨commit, rlog⟩ := followLocked_eq r req.term req.leaderId
    exact (appendEntriesLocked_onward _ h).after commit (congrArg _ rlog)

theorem handleInstallSnapshot_onward (req : InstallSnapshotRequest ID)
    (le : r.rlog.snapIndex ≤ r.commitIndex) : Onward r (r.handleInstallSnapshot req).1 := by
  simp only [Raft.handleInstallSnapshot]
  split
  · exact .refl r
  · obtain ⟨commit, rlog⟩ := followLocked_eq r req.term req.leaderId
    refine (installSnapshotLocked_onward _ req ?_).after commit (congrArg _ rlog)
    rw [commit, rlog]
    exact le

theorem onReply_onward (respTerm reqTerm : Nat) (peer : ID) (sentAt : Nat)
    {handle : Raft ID → Raft ID} (h : ∀ r, Onward r (handle r)) :
    Onward r (r.onReply respTerm reqTerm peer sentAt handle).1 := by
  simp only [Raft.onReply]
  split
  · exact becomeFollowerLocked_onward r respTerm none
  · split
    · exact .refl r
    · refine (h _).after ?_ ?_ <;>
      · simp only [Raft.recordAckLocked]
        split <;> rfl

theorem appendReplyLocked_onward (cfg : Config ID) (self peer : ID) (req : AppendEntriesRequest ID)
    (resp : AppendEntriesResponse) : Onward r (r.appendReplyLocked cfg self peer req resp) := by
  simp only [Raft.appendReplyLocked]
  split
  · split
    · exact (advanceCommitLocked_onward _ cfg self).after rfl rfl
    · exact .refl r
  · exact .of_eq rfl rfl

theorem installReplyLocked_onward (cfg : Config ID) (self peer : ID)
    (req : InstallSnapshotRequest ID) : Onward r (r.installReplyLocked cfg self peer req) := by
  simp only [Raft.installReplyLocked]
  split
  · have advanced := advanceCommitLocked_onward
      { r with matchIndex := Function.update r.matchIndex peer req.lastIncludedIndex } cfg self
    exact ⟨advanced.commit, advanced.snap⟩
  · exact .of_eq rfl rfl

theorem appendProposals_onward {cfg : Config ID} {self : ID} {batch : List Proposal}
    {r' : Raft ID} (h : (r.appendProposals cfg self batch).2 = some r') : Onward r r' := by
  simp only [Raft.appendProposals] at h
  split at h
  · cases h; exact .of_eq rfl rfl
  · split at h
    · cases h
    next appended =>
      cases h
      refine (advanceCommitLocked_onward _ cfg self).after rfl ?_
      rw [append_eq appended]

end Regions

section Effects

variable [DecidableEq ID] {cfg : Config ID} {self : ID} {M : StateMachine σ} {T : Transport}
  {p p' : Process ID σ} {act : Action ID} {out : Outcome ID σ} {sent : List (Msg ID)}

theorem effect_onward (h : Effect cfg self M T p act out) (next : out.next = some (p', sent))
    (le : p.raft.rlog.snapIndex ≤ p.raft.commitIndex) : Onward p.raft p'.raft := by
  cases h with
  | checkQuorum running leads =>
      cases next
      simp only [Raft.checkQuorumLocked]
      split
      · exact .refl _
      · exact becomeFollowerLocked_onward _ _ _
  | electionTimeout running idle =>
      cases next
      simp only [Raft.electionTimeout]
      split <;> exact .of_eq rfl rfl
  | campaign starting => cases next; exact beginCampaign_onward _ _ _
  | wonPreVote round won trial => cases next; exact afterPreVote_onward _ _ _
  | wonElection round won real later =>
      obtain ⟨r, led, eq⟩ := Option.map_eq_some_iff.mp next
      cases eq
      exact afterElection_onward _ led
  | requestVote => cases next; exact handleRequestVote_onward _ _ _
  | voteReply => cases next; exact handleVoteReply_onward _ _ _ _
  | timeoutNow =>
      cases next
      simp only [Raft.handleTimeoutNow]
      split <;> exact .of_eq rfl rfl
  | appendEntries =>
      obtain ⟨x, handled, eq⟩ := Option.map_eq_some_iff.mp next
      cases eq
      exact handleAppendEntries_onward _ handled
  | appendReply =>
      cases next
      exact onReply_onward _ _ _ _ _ fun r => appendReplyLocked_onward r cfg self _ _ _
  | installSnapshot => cases next; exact handleInstallSnapshot_onward _ _ le
  | installReply =>
      cases next
      exact onReply_onward _ _ _ _ _ fun r => installReplyLocked_onward r cfg self _ _
  | appendProposals nonempty there batch =>
      obtain ⟨r, done, eq⟩ := Option.map_eq_some_iff.mp next
      cases eq
      exact appendProposals_onward _ done
  | startTransfer later started =>
      cases next
      simp only [Raft.startTransfer] at started
      split at started
      · cases started
      · split at started
        · cases started
        · split at started
          · cases started
          · cases started
            exact .of_eq rfl rfl
  | endTransfer active =>
      cases next
      simp only [Raft.endTransfer]
      split <;> exact .of_eq rfl rfl
  | stop => cases next; exact stop_onward _
  | @finishBatch results last stage final =>
      cases next
      obtain ⟨waiters, done, eq⟩ := foldl_answer_eq p.raft results
      simp only [Raft.finishBatch, eq]
      exact .of_eq rfl rfl
  | compact stage =>
      cases next
      refine ⟨Nat.le_refl _, ?_⟩
      simp only [compact_snapIndex]
      exact Nat.le_max_left _ _
  | replicatePanic | takePanic | restorePanic | applyPanic | finishPanic => cases next
  | abandonCampaign | replicate | readSnapshot | send | propose | readIndex | refuseRead | startRead
  | checkRead | abandonRead | targetReady | sendTimeoutNow | takeSnapshot | takeEntries | restore
  | finishRestore | skip | apply | snapshotFailed | snapshot | snapshotOvertaken | snapshotTerm
  | saveFailed | saveSnapshot => cases next; exact .of_eq rfl rfl

theorem bearing_applied (h : Bearing cfg self M p act p') :
    p.raft.lastApplied ≤ p'.raft.lastApplied := by
  cases h with
  | steady raft applier => exact raft.applied.ge
  | @heard m peer sentAt respTerm input reply leads current raft applier =>
      have same : (p.raft.recordAckLocked peer sentAt).lastApplied = p.raft.lastApplied := by
        simp only [Raft.recordAckLocked]
        split <;> rfl
      exact (raft.applied.trans same).ge
  | elected later clock stood raft applier => exact raft.applied.ge
  | proposed leads leads' term appended waiters done applied acked applier => exact applied.ge
  | staged waiters done acked applied fresh => exact applied
  | passed raft stage stage' applied => exact (congrArg Raft.lastApplied raft).ge
  | @finished results last raft stage final fresh =>
      obtain ⟨waiters, done, eq⟩ := foldl_answer_eq p.raft results
      simp only [raft, Raft.finishBatch, eq]
      exact Nat.le_max_left _ _

end Effects

section Panics

theorem term_inside (l : RaftLog) {i : Nat} (later : i ≠ l.snapIndex)
    (inside : ¬ (i < l.snapIndex ∨ l.lastIndex < i)) :
    ∃ e, l.entries[i - l.snapIndex - 1]? = some e := by
  have last : l.lastIndex = l.snapIndex + l.entries.length := rfl
  exact ⟨_, List.getElem?_eq_getElem (by omega)⟩

theorem slice_inside {l : RaftLog} {lo hi : Nat} (above : l.snapIndex < lo)
    (below : hi ≤ l.lastIndex) : ∃ entries, l.slice lo hi = some entries := by
  rw [RaftLog.slice]
  split
  · exact ⟨_, rfl⟩
  · rw [if_neg (by omega)]
    exact ⟨_, rfl⟩

/-- The state machine itself gives up: it rejects a snapshot, or panics on an entry. -/
def Process.MachineFails (M : StateMachine σ) (p : Process ID σ) : Action ID → Prop
  | .applier .restore => ∃ snap, p.applier = .restoring snap ∧ M.restore snap.data = none
  | .applier .apply => ∃ e rest results, p.applier = .applying (e :: rest) results ∧
      M.apply p.machine e.index e.data = none
  | _ => False

theorem replicateOnce_built (cfg : Config ID) (self : ID) (r : Raft ID) (peer : ID) :
    ∃ call, r.replicateOnce cfg self peer = some call := by
  simp only [Raft.replicateOnce]
  split
  · exact ⟨_, rfl⟩
  · split
    · exact ⟨_, rfl⟩
    next above =>
      obtain ⟨entries, cut⟩ := slice_inside (Nat.lt_of_not_le above)
        (Nat.min_le_left r.rlog.lastIndex (r.nextIndex peer - 1 + cfg.maxAppendEntries))
      rw [cut]
      exact ⟨_, rfl⟩

variable {cfg : Config ID} {n : ID} {M : StateMachine σ} {a : Abs ID} {p : Process ID σ}

/-- The applier only slices what the log still holds. -/
theorem waiting_slice (h : Node M a n p) (waiting : p.applier = .waiting)
    (pending : p.raft.pendingSnapshot = none) : p.raft.rlog.snapIndex ≤ p.raft.lastApplied := by
  have reach := h.working.reach
  simpa [Process.reach, Process.horizon, waiting, pending] using reach

/-- Becoming a follower writes nothing that the storage could refuse. -/
theorem followLocked_stored [DecidableEq ID] (r : Raft ID) (s : MemStorage ID) (t : Nat) (leader : ID) :
    ∃ s', s.performAll (r.followLocked t leader).2 = some s' := by
  simp only [Raft.followLocked]
  split
  · rw [Raft.becomeFollowerLocked_eq]
    simp only
    split <;> exact ⟨_, rfl⟩
  · exact ⟨_, rfl⟩

section Append

variable {req : AppendEntriesRequest ID} (sound : Sound cfg a) (h : Node M a n p)
  (rel : AppendRel a req)
include sound h rel

/-- Nothing that the log has compacted is in conflict with the request, and what is
fresh in it follows what is kept. -/
theorem storeEntries_done {prev : Nat} (above : p.raft.rlog.snapIndex ≤ prev)
    (le : prev ≤ req.prevLogIndex + req.entries.length) (inside : prev ≤ (a.log n).length)
    (common : (a.log n).take prev = (a.ledger req.term).take prev) {entries : List Entry}
    (rest : entries =
      ((a.ledger req.term).take (req.prevLogIndex + req.entries.length)).drop prev) :
    ∃ result, (p.raft.storeEntries req entries).2 = some result := by
  subst rest
  rw [Raft.storeEntries]
  rcases mergeEntries_spec h.log (sound.indexed _) (ledger_agree sound n req.term) above le rel.len
    inside common with ⟨merged, -⟩ | ⟨j, kept, -, beyond, -, -, -, log, -, merged⟩
  · rw [merged]
    exact ⟨_, rfl⟩
  · obtain ⟨rlog, appended, -⟩ := append_fresh log (sound.indexed _) beyond.le rel.len
    rw [merged]
    simp only [appended]
    exact ⟨_, rfl⟩

theorem checkEntries_done {prev : Nat} (above : p.raft.rlog.snapIndex ≤ prev)
    (le : prev ≤ req.prevLogIndex + req.entries.length)
    (known : prev = req.prevLogIndex ∨ (a.log n).take prev = (a.ledger req.term).take prev)
    {entries : List Entry}
    (rest : entries =
      ((a.ledger req.term).take (req.prevLogIndex + req.entries.length)).drop prev) :
    ∃ result, (p.raft.checkEntries req prev entries).2 = some result := by
  simp only [Raft.checkEntries, holds_lastIndex h.log]
  split
  · exact ⟨_, rfl⟩
  next inside =>
    have inside := Nat.le_of_not_lt inside
    simp only [holds_term_some h.log above inside, Option.getD_some]
    split
    · exact ⟨_, rfl⟩
    next agrees =>
      have common := checked_common sound rel le inside known agrees
      exact storeEntries_done sound h rel above le inside common rest

theorem appendEntriesLocked_done (term : p.raft.term = req.term) :
    ∃ result, (p.raft.appendEntriesLocked req).2 = some result := by
  simp only [Raft.appendEntriesLocked]
  split
  · have current : a.term n = req.term := h.term.symm.trans term
    have led : a.leader (a.term n) ≠ none := by rw [current, rel.leader]; simp
    split
    · exact ⟨_, rfl⟩
    · refine checkEntries_done sound h rel (Nat.le_refl _) (by omega) (Or.inr ?_) ?_
      · exact current ▸ (committed_common sound h led (h.snap_le.trans h.stored_le)).1
      · rw [rel.entries, List.drop_drop, ← rel.entries]
        congr 1
        omega
  next start =>
    exact checkEntries_done sound h rel (Nat.le_of_not_lt start) (by omega) (Or.inl rfl) rel.entries

theorem handleAppendEntries_done [DecidableEq ID] :
    ∃ result, (p.raft.handleAppendEntries req).2 = some result := by
  simp only [Raft.handleAppendEntries]
  split
  · exact ⟨_, rfl⟩
  next current =>
    obtain ⟨s, stored⟩ := followLocked_stored p.raft p.storage req.term req.leaderId
    obtain ⟨a', moves, node, term, -⟩ :=
      (followLocked_sim sound h (Nat.le_of_not_lt current) req.leaderId).done s stored
    exact appendEntriesLocked_done (moves.sound sound) node
      (appendRel_grows (moves.grows sound) rel) term

end Append

variable [DecidableEq ID] {T : Transport} {act : Action ID} {out : Outcome ID σ}

theorem afterElection_done (cfg : Config ID) (self : ID) (r : Raft ID)
    (req : RequestVoteRequest ID) (now : Nat) :
    ∃ r', (r.afterElection cfg self req now).2 = some r' := by
  simp only [Raft.afterElection]
  split
  · simp only [Raft.becomeLeaderLocked, RaftLog.append, Raft.noopEntry, if_true]
    exact ⟨_, rfl⟩
  · exact ⟨_, rfl⟩

theorem appendProposals_done (cfg : Config ID) (self : ID) (r : Raft ID)
    (batch : List Proposal) :
    ∃ r', (r.appendProposals cfg self batch).2 = some r' := by
  simp only [Raft.appendProposals]
  split
  · exact ⟨_, rfl⟩
  · rw [append_some fun k e there => ?_]
    · exact ⟨_, rfl⟩
    · obtain ⟨q, -, rfl⟩ := r.proposalEntries_at there
      rfl

/-- Where an action panics, the state machine is the reason. -/
theorem effect_panics (sound : Sound cfg a) (h : Node M a n p)
    (received : ∀ m, act.input n = some m → MsgRel M a m) (effect : Effect cfg n M T p act out)
    (panics : out.next = none) : p.MachineFails M act := by
  cases effect with
  | @wonElection now req granted round won real later =>
      obtain ⟨r, done⟩ := afterElection_done cfg n p.raft req now
      rw [Process.tryLock, done] at panics
      cases panics
  | @replicatePanic peer other failed =>
      obtain ⟨call, built⟩ := replicateOnce_built cfg n p.raft peer
      rw [built] at failed
      cases failed
  | @appendEntries sentAt req =>
      obtain ⟨result, done⟩ := handleAppendEntries_done sound h (received _ rfl)
      simp only [done] at panics
      cases panics
  | @appendProposals count nonempty there batch =>
      obtain ⟨r, done⟩ := appendProposals_done cfg n p.raft (p.proposeCh.take count)
      rw [Process.tryLock, done] at panics
      cases panics
  | takePanic waiting running pending behind failed =>
      have above := waiting_slice h waiting pending
      have below := h.commit_le
      rw [← holds_lastIndex h.log] at below
      obtain ⟨entries, cut⟩ := slice_inside (Nat.lt_succ_of_le above) below
      rw [cut] at failed
      cases failed
  | restorePanic stage failed => exact ⟨_, stage, failed⟩
  | applyPanic stage normal failed => exact ⟨_, _, _, stage, failed⟩
  | finishPanic stage =>
      have staged := h.working.stage
      rw [stage] at staged
      exact absurd staged.1 (Nat.lt_irrefl 0)
  | _ => cases panics

end Panics

section Runs

/-- The order of a replica's indexes. The last part is for an applier that is about to
slice the log. -/
structure Process.InOrder (p : Process ID σ) : Prop where
  snap_le : p.raft.rlog.snapIndex ≤ p.raft.commitIndex
  commit_le : p.raft.commitIndex ≤ p.raft.rlog.lastIndex
  applied_le : p.raft.lastApplied ≤ p.raft.commitIndex
  sliced : p.applier = .waiting → p.raft.pendingSnapshot = none →
    p.raft.lastApplied < p.raft.commitIndex → p.raft.rlog.snapIndex ≤ p.raft.lastApplied

theorem node_inOrder {M : StateMachine σ} {a : Abs ID} {n : ID} {p : Process ID σ}
    (h : Node M a n p) : p.InOrder where
  snap_le := h.snap_le.trans h.stored_le
  commit_le := (holds_lastIndex h.log).symm ▸ h.commit_le
  applied_le := h.working.applied_le
  sliced := fun waiting pending _ => waiting_slice h waiting pending

/-- What never falls while a process lives. -/
structure Raft.Rises (r r' : Raft ID) : Prop where
  term : r.term ≤ r'.term
  commit : r.commitIndex ≤ r'.commitIndex
  applied : r.lastApplied ≤ r'.lastApplied
  snap : r.rlog.snapIndex ≤ r'.rlog.snapIndex

theorem Raft.Rises.refl (r : Raft ID) : r.Rises r :=
  ⟨Nat.le_refl _, Nat.le_refl _, Nat.le_refl _, Nat.le_refl _⟩

theorem Raft.Rises.trans {r r' r'' : Raft ID} (h : r.Rises r') (h' : r'.Rises r'') : r.Rises r'' :=
  ⟨h.term.trans h'.term, h.commit.trans h'.commit, h.applied.trans h'.applied, h.snap.trans h'.snap⟩

/-- A step in which the process of `n` lives on. -/
def Group.Lives [DecidableEq ID] (cfg : Config ID) (M : StateMachine σ) (T : Transport) (n : ID)
    (g g' : Group ID σ) : Prop :=
  (∃ m act, Group.Performs cfg M T m act g g') ∨ ∃ m, m ≠ n ∧ Group.Crashes cfg M T m g g'

variable [DecidableEq ID] {cfg : Config ID} {n : ID} {M : StateMachine σ} {T : Transport}
  {a : Abs ID} {g g' : Group ID σ} {act : Action ID}

theorem performs_applied (h : Group.Performs cfg M T n act g g') (m : ID) :
    (g.procs m).raft.lastApplied ≤ (g'.procs m).raft.lastApplied := by
  obtain ⟨out, p, sent, s, enabled, stored, next, rfl⟩ := h
  by_cases own : m = n
  · subst own
    simp only [Function.update_self]
    exact bearing_applied (effect_bearing (exec_effect enabled.exec) next)
  · simp only [Function.update_of_ne own, le_refl]

theorem performs_onward (h : Group.Performs cfg M T n act g g') (m : ID)
    (le : (g.procs m).raft.rlog.snapIndex ≤ (g.procs m).raft.commitIndex) :
    Onward (g.procs m).raft (g'.procs m).raft := by
  obtain ⟨out, p, sent, s, enabled, stored, next, rfl⟩ := h
  by_cases own : m = n
  · subst own
    simp only [Function.update_self]
    exact effect_onward (exec_effect enabled.exec) next le
  · simp only [Function.update_of_ne own]
    exact .refl _

theorem lives_rises (honours : T.HonoursContext) (h : Rel cfg M a g)
    (lives : Group.Lives cfg M T n g g') :
    ∃ a', Rel cfg M a' g' ∧ (g.procs n).raft.Rises (g'.procs n).raft := by
  rcases lives with ⟨m, act, performs⟩ | ⟨m, other, crashes⟩
  · obtain ⟨a', advance, rel⟩ := rel_step honours h (Group.performs_step performs)
    have onward := performs_onward performs n (node_inOrder (h.nodes n)).snap_le
    refine ⟨a', rel, ?_, onward.commit, performs_applied performs n, onward.snap⟩
    rw [(h.nodes n).term, (rel.nodes n).term]
    exact advance.grows.term n
  · obtain ⟨a', advance, rel⟩ := rel_step honours h (Group.crashes_step crashes)
    refine ⟨a', rel, ?_⟩
    obtain ⟨ops, s, p, -, -, -, rfl⟩ := crashes
    simp only [Function.update_of_ne other.symm]
    exact .refl _

theorem lifetime_rises (honours : T.HonoursContext) (h : Rel cfg M a g)
    (lives : Relation.ReflTransGen (Group.Lives cfg M T n) g g') :
    ∃ a', Rel cfg M a' g' ∧ (g.procs n).raft.Rises (g'.procs n).raft := by
  induction lives with
  | refl => exact ⟨a, h, .refl _⟩
  | tail _ next ih =>
      obtain ⟨a₁, h₁, rises⟩ := ih
      obtain ⟨a₂, h₂, rises'⟩ := lives_rises honours h₁ next
      exact ⟨a₂, h₂, rises.trans rises'⟩

/-- Whatever a crash leaves in the storage, a node can start from it. -/
theorem interrupted_new (honours : T.HonoursContext) (h : Rel cfg M a g)
    {ops : List (StorageOp ID)} {s : MemStorage ID} (interrupted : Interrupted cfg M T g n ops)
    (stored : (g.procs n).storage.performAll ops = some s) : ∃ r, Raft.new s = some r := by
  obtain ⟨a', sound, durable⟩ : ∃ a', Sound cfg a' ∧ Durable M a' n s := by
    cases interrupted with
    | idle member =>
        cases stored
        exact ⟨a, h.sound, (h.nodes n).durable⟩
    | during enabled begun =>
        obtain ⟨a', moves, durable⟩ := (effect_sim honours h enabled).crash ops s begun stored
        exact ⟨a', moves.sound h.sound, durable⟩
  exact ⟨_, new_eq durable.log (log_indexed sound n)⟩

/-- No operation on a log is called outside its range: where an action panics it is the
state machine that does, `New` builds the log whatever a crash left, and `term` looks
up only entries that are there. The indexes of every node are in order and never fall
while its process lives. -/
theorem indexes_in_order (cfg : Config ID) (M : StateMachine σ) (T : Transport)
    (honours : T.HonoursContext) (g : Group ID σ) (reachable : Group.Reachable cfg M T g) :
    (∀ n act out, Enabled cfg M T g n act out → out.next = none →
      (g.procs n).MachineFails M act) ∧
    (∀ n ops s, Interrupted cfg M T g n ops → (g.procs n).storage.performAll ops = some s →
      ∃ r, Raft.new s = some r) ∧
    (∀ (l : RaftLog) (i : Nat), i ≠ l.snapIndex → ¬ (i < l.snapIndex ∨ l.lastIndex < i) →
      ∃ e, l.entries[i - l.snapIndex - 1]? = some e) ∧
    (∀ n, (g.procs n).InOrder) ∧
    ∀ n g', Relation.ReflTransGen (Group.Lives cfg M T n) g g' →
      (g.procs n).raft.Rises (g'.procs n).raft := by
  obtain ⟨a, rel⟩ := reachable_rel honours reachable
  refine ⟨fun n act out enabled panics => ?_,
    fun n ops s interrupted stored => interrupted_new honours rel interrupted stored,
    fun l i later inside => term_inside l later inside, fun n => node_inOrder (rel.nodes n),
    fun n g' lives => ?_⟩
  · exact effect_panics rel.sound (rel.nodes n)
      (fun m input => rel.msgs m (enabled.received m input)) (exec_effect enabled.exec) panics
  · obtain ⟨-, -, rises⟩ := lifetime_rises honours rel lives
    exact rises

theorem indexes_in_order_committed :
    ∃ g : Group Nat Unit, Group.Reachable trio idleMachine ⟨false⟩ g ∧
      (g.procs 1).raft.lastApplied < (g.procs 1).raft.commitIndex ∧
      (g.procs 1).applier = .waiting ∧ (g.procs 1).raft.pendingSnapshot = none ∧
      (g.procs 1).InOrder ∧ ∀ out,
        Enabled trio idleMachine ⟨false⟩ g 1 (.applier .takeWork) out → out.next ≠ none := by
  obtain ⟨g, hg, behind, waiting, pending⟩ : ∃ g, Group.play trio idleMachine ⟨false⟩
      (Group.initial idleMachine) committedRun = some g ∧
      (g.procs 1).raft.lastApplied < (g.procs 1).raft.commitIndex ∧
      (g.procs 1).applier = .waiting ∧ (g.procs 1).raft.pendingSnapshot = none :=
    ⟨_, rfl, by decide, rfl, rfl⟩
  have reachable : Group.Reachable trio idleMachine ⟨false⟩ g := Group.play_steps hg
  obtain ⟨panics, -, -, order, -⟩ := indexes_in_order trio idleMachine ⟨false⟩ rfl g reachable
  exact ⟨g, reachable, behind, waiting, pending, order 1,
    fun out enabled none => panics 1 _ out enabled none⟩

end Runs

end EdgeKV
