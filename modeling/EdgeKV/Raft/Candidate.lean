import Mathlib.Data.Finset.Card
import EdgeKV.Raft.Reign

/-!
The commit rule of a leader. The position at which `advanceCommitLocked` reads the sorted
list of indexes is where the greatest index stored by a quorum stands, and along every run
a leader's commit index moves to that index only, where its log has an entry of its term.
-/
namespace EdgeKV

variable {ID σ : Type} [DecidableEq ID]

section Arithmetic

variable (cfg : Config ID) (self : ID) (r : Raft ID)

/-- What each member is known to store, the leader first. -/
def Raft.values : List Nat := r.rlog.lastIndex :: (cfg.others self).map r.matchIndex

variable {cfg self}

theorem values_length (member : self ∈ cfg.peers) :
    (r.values cfg self).length = cfg.peers.length := by
  have size := (others_perm cfg member).length_eq
  rw [List.length_cons] at size
  rw [Raft.values, List.length_cons, List.length_map, size]

omit [DecidableEq ID] in
theorem quorum_le (member : self ∈ cfg.peers) : cfg.quorum ≤ cfg.peers.length := by
  have pos := List.length_pos_of_mem member
  rw [Config.quorum]
  omega

/-- The position that is read is one of the list. -/
theorem commitCandidate_at (member : self ∈ cfg.peers) :
    ((r.values cfg self).insertionSort (· ≤ ·))[(r.values cfg self).length - cfg.quorum]? =
      some (r.commitCandidate cfg self) := by
  have pos : 0 < cfg.quorum := Nat.succ_pos _
  have size := quorum_le member
  have inside : (r.values cfg self).length - cfg.quorum <
      ((r.values cfg self).insertionSort (· ≤ ·)).length := by
    rw [List.length_insertionSort, values_length r member]
    omega
  have found := List.getElem?_eq_getElem inside
  rw [Raft.commitCandidate]
  exact found.trans (congrArg some (congrArg (Option.getD · 0) found).symm)

theorem commitCandidate_greatest (member : self ∈ cfg.peers) :
    IsGreatest {c | cfg.quorum ≤ (r.values cfg self).countP (c ≤ ·)}
      (r.commitCandidate cfg self) := by
  refine Consensus.isGreatest_sorted ?_ (commitCandidate_at r member)
  rw [values_length r member]
  exact quorum_le member

theorem quorums_meet {A B : Finset ID} (inA : ∀ n ∈ A, n ∈ cfg.peers)
    (inB : ∀ n ∈ B, n ∈ cfg.peers) (sizeA : cfg.quorum ≤ A.card) (sizeB : cfg.quorum ≤ B.card) :
    (A ∩ B).Nonempty := by
  have majority {S : Finset ID} (inS : ∀ n ∈ S, n ∈ cfg.peers) (size : cfg.quorum ≤ S.card) :
      Consensus.IsMajority cfg.peers (· ∈ S) :=
    ⟨S.toList, S.nodup_toList, fun n hn => inS n (Finset.mem_toList.mp hn),
      S.length_toList.symm ▸ size, fun n hn => Finset.mem_toList.mp hn⟩
  obtain ⟨n, hA, hB⟩ := Consensus.isMajority_meets (majority inA sizeA) (majority inB sizeB)
  exact ⟨n, Finset.mem_inter.mpr ⟨hA, hB⟩⟩

/-- The commit index moves forward only, to the candidate, and if that is of this term. -/
theorem advanceCommitLocked_moves
    (moved : (r.advanceCommitLocked cfg self).commitIndex ≠ r.commitIndex) :
    (r.advanceCommitLocked cfg self).commitIndex = r.commitCandidate cfg self ∧
      r.commitIndex < r.commitCandidate cfg self ∧
      (r.rlog.term (r.commitCandidate cfg self)).getD 0 = r.term := by
  rw [Raft.advanceCommitLocked_eq] at moved ⊢
  simp only at moved ⊢
  split at moved
  next able => exact ⟨if_pos able, able⟩
  · exact absurd rfl moved

end Arithmetic

/-- A region after which a leader has the commit index it had, or has moved it to the
greatest index stored by a quorum, an index of its own term. -/
def Advances (cfg : Config ID) (self : ID) (r r' : Raft ID) : Prop :=
  r'.state = .leader → r'.commitIndex ≠ r.commitIndex →
    r'.commitIndex = r'.commitCandidate cfg self ∧ r.commitIndex < r'.commitIndex ∧
      (r'.rlog.term r'.commitIndex).getD 0 = r'.term ∧ r'.rlog.snapIndex = r.rlog.snapIndex

namespace Advances

variable {cfg : Config ID} {self : ID} {r r₁ r' : Raft ID}

theorem of_eq (commit : r'.commitIndex = r.commitIndex) : Advances cfg self r r' :=
  fun _ moved => absurd commit moved

/-- A region that starts from `r` with other fields set. -/
theorem after (h : Advances cfg self r₁ r') (commit : r₁.commitIndex = r.commitIndex)
    (rlog : r₁.rlog = r.rlog) : Advances cfg self r r' := by
  rw [Advances, ← commit, ← rlog]
  exact h

theorem follows (state : r'.state = .follower) : Advances cfg self r r' :=
  fun leads => nomatch state.symm.trans leads

/-- A region that ends with `advanceCommitLocked`, or only sets `nextIndex` after it. -/
theorem advanced (commit : r₁.commitIndex = r.commitIndex)
    (snap : r₁.rlog.snapIndex = r.rlog.snapIndex) (nextIndex : ID → Nat) :
    Advances cfg self r { r₁.advanceCommitLocked cfg self with nextIndex := nextIndex } := by
  intro _ moved
  rw [← commit] at moved ⊢
  obtain ⟨candidate, later, own⟩ := advanceCommitLocked_moves r₁ moved
  rw [← candidate] at later own
  rw [Raft.advanceCommitLocked_eq] at candidate later own ⊢
  exact ⟨candidate, later, own, snap⟩

end Advances

section Regions

variable {cfg : Config ID} {self : ID} (r : Raft ID)

theorem handleRequestVote_advances (req : RequestVoteRequest ID) (recent : Bool) :
    Advances cfg self r (r.handleRequestVote req recent).1 := by
  have grant (r : Raft ID) : (r.grantVoteLocked req).1.state = r.state ∧
      (r.grantVoteLocked req).1.commitIndex = r.commitIndex := by
    simp only [Raft.grantVoteLocked]
    split <;> exact ⟨rfl, rfl⟩
  simp only [Raft.handleRequestVote]
  split
  · exact .of_eq rfl
  · split
    · exact .of_eq rfl
    · split
      · obtain ⟨follower, -⟩ := becomeFollowerLocked_follows r req.term none
        exact .follows ((grant _).1.trans follower)
      · exact .of_eq (grant r).2

theorem handleVoteReply_advances (peer : ID) (req : RequestVoteRequest ID)
    (resp : RequestVoteResponse) : Advances cfg self r (r.handleVoteReply peer req resp).1 := by
  have adopted :
      (if r.term < resp.term then r.becomeFollowerLocked resp.term none else (r, [])).1.commitIndex =
        r.commitIndex := by
    split
    · rw [Raft.becomeFollowerLocked_eq]
    · rfl
  simp only [Raft.handleVoteReply]
  split
  · split
    · exact .of_eq adopted
    · exact .of_eq adopted
  · exact .of_eq adopted

theorem handleAppendEntries_advances {req : AppendEntriesRequest ID} {r' : Raft ID}
    {resp : AppendEntriesResponse} (h : (r.handleAppendEntries req).2 = some (r', resp)) :
    Advances cfg self r r' := by
  simp only [Raft.handleAppendEntries] at h
  split at h
  · cases h; exact .of_eq rfl
  · obtain ⟨follower, -⟩ := followLocked_follows r req.term req.leaderId
    exact .follows ((appendEntriesLocked_role _ h).1.trans follower)

theorem handleInstallSnapshot_advances (req : InstallSnapshotRequest ID) :
    Advances cfg self r (r.handleInstallSnapshot req).1 := by
  simp only [Raft.handleInstallSnapshot]
  split
  · exact .of_eq rfl
  · obtain ⟨follower, -⟩ := followLocked_follows r req.term req.leaderId
    exact .follows ((installSnapshotLocked_role _ req).1.trans follower)

theorem afterElection_advances {req : RequestVoteRequest ID} {now : Nat} {r' : Raft ID}
    (h : (r.afterElection cfg self req now).2 = some r') : Advances cfg self r r' := by
  simp only [Raft.afterElection] at h
  split at h
  · simp only [Raft.becomeLeaderLocked] at h
    split at h
    · cases h
    next appended =>
      cases h
      have snap := congrArg RaftLog.snapIndex (append_eq appended)
      refine .advanced ?_ ?_ _
      · rfl
      · exact snap
  · cases h
    exact .of_eq rfl

theorem appendProposals_advances {batch : List Proposal} {r' : Raft ID}
    (h : (r.appendProposals cfg self batch).2 = some r') : Advances cfg self r r' := by
  simp only [Raft.appendProposals] at h
  split at h
  · cases h
    exact .of_eq rfl
  · split at h
    · cases h
    next appended =>
      cases h
      have snap := congrArg RaftLog.snapIndex (append_eq appended)
      refine .advanced ?_ ?_ _
      · rfl
      · exact snap

theorem appendReplyLocked_advances (peer : ID) (req : AppendEntriesRequest ID)
    (resp : AppendEntriesResponse) :
    Advances cfg self r (r.appendReplyLocked cfg self peer req resp) := by
  simp only [Raft.appendReplyLocked]
  split
  · split
    · exact .advanced rfl rfl _
    · exact .of_eq rfl
  · exact .of_eq rfl

theorem installReplyLocked_advances (peer : ID) (req : InstallSnapshotRequest ID) :
    Advances cfg self r (r.installReplyLocked cfg self peer req) := by
  simp only [Raft.installReplyLocked]
  split
  · exact .advanced rfl rfl _
  · exact .of_eq rfl

theorem onReply_advances (respTerm reqTerm : Nat) (peer : ID) (sentAt : Nat)
    {handle : Raft ID → Raft ID} (h : ∀ r, Advances cfg self r (handle r)) :
    Advances cfg self r (r.onReply respTerm reqTerm peer sentAt handle).1 := by
  simp only [Raft.onReply]
  split
  · exact .follows (becomeFollowerLocked_follows r respTerm none).1
  · split
    · exact .of_eq rfl
    · obtain ⟨acked, eq⟩ := recordAckLocked_eq r peer sentAt
      exact (h _).after (by rw [eq]) (by rw [eq])

end Regions

section Runs

variable {cfg : Config ID} {self : ID} {M : StateMachine σ} {T : Transport}

theorem effect_advances {p p' : Process ID σ} {act : Action ID} {out : Outcome ID σ}
    {sent : List (Msg ID)} (h : Effect cfg self M T p act out)
    (next : out.next = some (p', sent)) : Advances cfg self p.raft p'.raft := by
  cases h with
  | checkQuorum running leads =>
      cases next
      simp only [Raft.checkQuorumLocked]
      split
      · exact .of_eq rfl
      · exact .follows (becomeFollowerLocked_follows _ _ _).1
  | electionTimeout running idle =>
      cases next
      simp only [Raft.electionTimeout]
      split <;> exact .of_eq rfl
  | campaign starting =>
      cases next
      simp only [Raft.beginCampaign]
      split
      · exact .of_eq rfl
      · split <;> exact .of_eq rfl
  | wonPreVote round won trial =>
      cases next
      simp only [Raft.afterPreVote]
      split <;> exact .of_eq rfl
  | wonElection round won real later =>
      obtain ⟨done, eq, -⟩ := tryLock_next next
      rw [eq]
      exact afterElection_advances _ done
  | requestVote => cases next; exact handleRequestVote_advances _ _ _
  | voteReply => cases next; exact handleVoteReply_advances _ _ _ _
  | timeoutNow =>
      cases next
      simp only [Raft.handleTimeoutNow]
      split <;> exact .of_eq rfl
  | appendEntries =>
      obtain ⟨x, handled, eq⟩ := Option.map_eq_some_iff.mp next
      cases eq
      exact handleAppendEntries_advances _ handled
  | appendReply =>
      cases next
      exact onReply_advances _ _ _ _ _ fun r => appendReplyLocked_advances r _ _ _
  | installSnapshot => cases next; exact handleInstallSnapshot_advances _ _
  | installReply =>
      cases next
      exact onReply_advances _ _ _ _ _ fun r => installReplyLocked_advances r _ _
  | appendProposals nonempty there batch =>
      obtain ⟨done, eq, -⟩ := tryLock_next next
      rw [eq]
      exact appendProposals_advances _ done
  | startTransfer later began =>
      cases next
      obtain ⟨-, -, eq, -⟩ := startTransfer_eq began
      exact .of_eq (by rw [eq])
  | endTransfer active =>
      cases next
      simp only [Raft.endTransfer]
      split <;> exact .of_eq rfl
  | stop =>
      cases next
      simp only [Raft.stop]
      split <;> exact .of_eq rfl
  | @finishBatch results last stage final =>
      cases next
      obtain ⟨waiters, done, eq⟩ := foldl_answer_eq p.raft results
      exact .of_eq (by simp only [Raft.finishBatch, eq])
  | replicatePanic | takePanic | restorePanic | applyPanic | finishPanic => cases next
  | abandonCampaign | replicate | readSnapshot | send | propose | readIndex | refuseRead | startRead
  | checkRead | abandonRead | takeSnapshot | takeEntries | restore | finishRestore | skip | apply
  | snapshotFailed | snapshot | snapshotOvertaken | snapshotTerm | saveFailed | saveSnapshot
  | targetReady | sendTimeoutNow | compact =>
      cases next
      exact .of_eq rfl

theorem stepOf_advances {g g' : Group ID σ} (h : Group.StepOf cfg M T self g g') :
    Advances cfg self (g.procs self).raft (g'.procs self).raft := by
  cases h with
  | run enabled stored next =>
      simp only [Function.update_self]
      exact effect_advances (exec_effect enabled.exec) next
  | crash interrupted stored restarted =>
      exact .follows (crashes_idle ⟨_, _, _, interrupted, stored, restarted, rfl⟩).1

/-- Whoever stands in an election or leads has begun a term. -/
theorem reachable_term_pos {g : Group ID σ} (h : Group.Reachable cfg M T g) (n : ID)
    (stands : (g.procs n).raft.state ≠ .follower) : 0 < (g.procs n).raft.term := by
  induction h with
  | refl => exact absurd rfl stands
  | @tail g g' _ step ih =>
      obtain ⟨m, step⟩ := step
      by_cases own : n = m
      · subst own
        rcases stepOf_reign step with ⟨act, reign⟩ | ⟨idle, -⟩
        · rcases reign_role reign with rules | ⟨stood, -, term⟩ | ⟨state, term⟩
          · cases state : (g'.procs n).raft.state with
            | follower => exact absurd state stands
            | candidate =>
                rcases rules.stands state with ⟨stood, term⟩ | later
                · rw [term]
                  exact ih (by rw [stood]; nofun)
                · exact Nat.zero_lt_of_lt later
            | leader =>
                obtain ⟨led, term⟩ := rules.leads state
                rw [term]
                exact ih (by rw [led]; nofun)
          · rw [term]
            exact ih (by rw [stood]; nofun)
          · rw [term]
            exact ih (state ▸ stands)
        · exact absurd idle stands
      · rw [Group.stepOf_other step own] at stands ⊢
        exact ih stands

omit [DecidableEq ID] in
/-- With the default of the source told apart from a term, the log has an entry. -/
theorem term_eq_some {l : RaftLog} {i t : Nat} (h : (l.term i).getD 0 = t) (pos : 0 < t) :
    l.term i = some t := by
  cases found : l.term i with
  | none =>
      rw [found, Option.getD_none] at h
      omega
  | some t' =>
      rw [found, Option.getD_some] at h
      rw [h]

omit [DecidableEq ID] in
theorem term_entry {l : RaftLog} {i t : Nat} (h : l.term i = some t) (above : l.snapIndex < i) :
    ∃ e, l.entries[i - l.snapIndex - 1]? = some e ∧ e.term = t := by
  rw [RaftLog.term, if_neg (by omega)] at h
  split at h
  · cases h
  · exact Option.map_eq_some_iff.mp h

/-- The commit rule. What is picked from the sorted list is the greatest index stored by a
quorum, quorums meet, and the commit index changes only to what is picked, which is
beyond the old one and of the leader's term; so it is in every step of every run. -/
theorem commit_rule (cfg : Config ID) (M : StateMachine σ) (T : Transport) (self : ID)
    (member : self ∈ cfg.peers) :
    (∀ r : Raft ID,
      (r.values cfg self).length = cfg.peers.length ∧
      ((r.values cfg self).insertionSort (· ≤ ·))[(r.values cfg self).length - cfg.quorum]? =
        some (r.commitCandidate cfg self) ∧
      IsGreatest {c | cfg.quorum ≤ (r.values cfg self).countP (c ≤ ·)}
        (r.commitCandidate cfg self) ∧
      ((r.advanceCommitLocked cfg self).commitIndex ≠ r.commitIndex →
        (r.advanceCommitLocked cfg self).commitIndex = r.commitCandidate cfg self ∧
        r.commitIndex < r.commitCandidate cfg self ∧
        (r.rlog.term (r.commitCandidate cfg self)).getD 0 = r.term)) ∧
    (∀ A B : Finset ID, (∀ n ∈ A, n ∈ cfg.peers) → (∀ n ∈ B, n ∈ cfg.peers) →
      cfg.quorum ≤ A.card → cfg.quorum ≤ B.card → (A ∩ B).Nonempty) ∧
    ∀ g g' : Group ID σ, Group.Reachable cfg M T g → Group.StepOf cfg M T self g g' →
      ∀ r r', r = (g.procs self).raft → r' = (g'.procs self).raft →
        r'.state = .leader → r'.commitIndex ≠ r.commitIndex →
        r'.commitIndex = r'.commitCandidate cfg self ∧ r.commitIndex < r'.commitIndex ∧
        r'.rlog.term r'.commitIndex = some r'.term ∧
        (T.HonoursContext → ∃ e,
          r'.rlog.entries[r'.commitIndex - r'.rlog.snapIndex - 1]? = some e ∧
            e.term = r'.term) := by
  refine ⟨fun r => ⟨values_length r member, commitCandidate_at r member,
    commitCandidate_greatest r member, advanceCommitLocked_moves r⟩,
    fun A B inA inB sizeA sizeB => quorums_meet inA inB sizeA sizeB, ?_⟩
  rintro g g' reachable step r r' rfl rfl leads moved
  obtain ⟨candidate, later, own, snap⟩ := stepOf_advances step leads moved
  have reachable' : Group.Reachable cfg M T g' := reachable.tail ⟨self, step⟩
  have pos := reachable_term_pos reachable' self (by rw [leads]; nofun)
  have found := term_eq_some own pos
  refine ⟨candidate, later, found, fun honours => ?_⟩
  obtain ⟨a, rel⟩ := reachable_rel honours reachable
  have node := rel.nodes self
  exact term_entry found (by rw [snap]; exact (node.snap_le.trans node.stored_le).trans_lt later)

/-- A leader of three nodes with five entries, of which its peers store three and four. -/
theorem commit_rule_trio :
    ∃ r : Raft Nat, r.values trio 0 = [5, 3, 4] ∧ r.commitIndex = 0 ∧
      IsGreatest {c | 2 ≤ [5, 3, 4].countP (c ≤ ·)} 4 ∧
      (r.advanceCommitLocked trio 0).commitIndex = 4 ∧ (r.rlog.term 4).getD 0 = r.term := by
  let entry (index : Nat) : Entry := { index, term := 1, type := .noop, data := [] }
  let r : Raft Nat :=
    { term := 1
      state := .leader
      rlog := { entries := [entry 1, entry 2, entry 3, entry 4, entry 5] }
      matchIndex := fun n => n + 2 }
  obtain ⟨-, -, greatest, moves⟩ :=
    (commit_rule trio idleMachine ⟨false⟩ 0 (by decide)).1 r
  have moved : (r.advanceCommitLocked trio 0).commitIndex = 4 := rfl
  obtain ⟨-, -, own⟩ := moves (by rw [moved]; decide)
  exact ⟨r, rfl, rfl, greatest, moved, own⟩

end Runs
end EdgeKV
