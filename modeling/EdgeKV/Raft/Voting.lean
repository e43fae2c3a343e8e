import EdgeKV.Raft.Effects

/-!
What the regions of a replica do to its term and vote. A list of storage effects
is lawful if every hard state in it follows the one before: a later term, or the
same term without taking back a vote. Every action writes a lawful list, and its
last hard state is the one the process goes on with.
-/
namespace EdgeKV

variable {ID σ : Type}

/-- `hs'` may be saved after `hs`. -/
def HardState.Follows (hs hs' : HardState ID) : Prop :=
  hs.term < hs'.term ∨ (hs.term = hs'.term ∧ (hs.votedFor = none ∨ hs.votedFor = hs'.votedFor))

/-- Every hard state among the effects may be saved after the one before it. -/
def Lawful : HardState ID → List (StorageOp ID) → Prop
  | _, [] => True
  | hs, .hardState hs' :: ops => hs.Follows hs' ∧ Lawful hs' ops
  | hs, .entry _ :: ops => Lawful hs ops
  | hs, .snapshot _ _ _ :: ops => Lawful hs ops

def hardStateAfter : HardState ID → List (StorageOp ID) → HardState ID
  | hs, [] => hs
  | _, .hardState hs' :: ops => hardStateAfter hs' ops
  | hs, .entry _ :: ops => hardStateAfter hs ops
  | hs, .snapshot _ _ _ :: ops => hardStateAfter hs ops

theorem lawful_append (hs : HardState ID) (ops ops' : List (StorageOp ID)) :
    Lawful hs (ops ++ ops') ↔ Lawful hs ops ∧ Lawful (hardStateAfter hs ops) ops' := by
  induction ops generalizing hs with
  | nil => simp [Lawful, hardStateAfter]
  | cons op ops ih => cases op <;> simp [Lawful, hardStateAfter, ih, and_assoc]

theorem hardStateAfter_append (hs : HardState ID) (ops ops' : List (StorageOp ID)) :
    hardStateAfter hs (ops ++ ops') = hardStateAfter (hardStateAfter hs ops) ops' := by
  induction ops generalizing hs with
  | nil => rfl
  | cons op ops ih => cases op <;> simp [hardStateAfter, ih]

theorem lawful_begun {hs : HardState ID} {ops ops' : List (StorageOp ID)}
    (h : Lawful hs ops') (begun : ops <+: ops') : Lawful hs ops := by
  obtain ⟨rest, rfl⟩ := begun
  exact ((lawful_append hs ops rest).mp h).1

theorem performAll_hardState (s s' : MemStorage ID) (ops : List (StorageOp ID))
    (h : s.performAll ops = some s') : s'.hardState = hardStateAfter s.hardState ops := by
  induction ops generalizing s with
  | nil => cases h; rfl
  | cons op ops ih =>
      obtain ⟨m, first, rest⟩ := Option.bind_eq_some_iff.mp h
      rw [ih m rest]
      cases op with
      | hardState hs => cases first; rfl
      | entry e =>
          have same : m.hs = s.hs := by
            simp only [MemStorage.perform, MemStorage.appendLocked] at first
            split at first
            · cases first; rfl
            · split at first
              · cases first
              · cases first; rfl
          simp [hardStateAfter, MemStorage.hardState, same]
      | snapshot snapMeta data discardLog =>
          cases first
          have same : (s.saveSnapshot snapMeta data discardLog).hs = s.hs := by
            simp only [MemStorage.saveSnapshot]
            split <;> rfl
          simp [hardStateAfter, MemStorage.hardState, same]

/-- A region that writes `ops` treats term and vote lawfully, and unless it panics
the state it ends in has the hard state written last. -/
structure Casts (r : Raft ID) (ops : List (StorageOp ID)) (result : Option (Raft ID)) : Prop where
  lawful : Lawful r.hardState ops
  after : ∀ r', result = some r' → hardStateAfter r.hardState ops = r'.hardState

namespace Casts

variable {r r' r'' : Raft ID} {ops ops' : List (StorageOp ID)} {result : Option (Raft ID)}

theorem keeps (same : r'.hardState = r.hardState) : Casts r [] (some r') :=
  ⟨trivial, fun _ h => by cases h; exact same.symm⟩

theorem refl (r : Raft ID) : Casts r [] (some r) := keeps rfl

theorem panics (r : Raft ID) : Casts r [] none := ⟨trivial, fun _ h => by cases h⟩

theorem trans (h : Casts r ops (some r')) (h' : Casts r' ops' result) :
    Casts r (ops ++ ops') result where
  lawful := (lawful_append _ _ _).mpr ⟨h.lawful, h.after r' rfl ▸ h'.lawful⟩
  after := fun x hx => by rw [hardStateAfter_append, h.after r' rfl, h'.after x hx]

/-- Changes outside term and vote do not matter. -/
theorem congr (h : Casts r ops (some r')) (same : r''.hardState = r'.hardState) :
    Casts r ops (some r'') :=
  ⟨h.lawful, fun _ hx => by cases hx; exact (h.after r' rfl).trans same.symm⟩

theorem hardState (follows : r.hardState.Follows r'.hardState) :
    Casts r (r'.persistLocked true []) (some r') :=
  ⟨⟨follows, trivial⟩, fun _ h => by cases h; rfl⟩

/-- Writing entries is no matter of term and vote. -/
theorem entries (es : List Entry) (same : r'.hardState = r.hardState) :
    Casts r (r.persistLocked false es) (some r') := by
  have neutral : Lawful r.hardState (es.map StorageOp.entry) ∧
      hardStateAfter r.hardState (es.map StorageOp.entry) = r.hardState := by
    induction es with
    | nil => exact ⟨trivial, rfl⟩
    | cons e es ih => exact ih
  exact ⟨neutral.1, fun _ h => by cases h; exact neutral.2.trans same.symm⟩

end Casts

section Regions

variable (r : Raft ID)

theorem becomeFollowerLocked_casts (term : Nat) (leader : Option ID) :
    Casts r (r.becomeFollowerLocked term leader).2
      (some (r.becomeFollowerLocked term leader).1) := by
  rw [Raft.becomeFollowerLocked_eq]
  by_cases newer : r.term < term
  · refine ⟨?_, fun r' h => ?_⟩
    · simp [Lawful, HardState.Follows, Raft.hardState, newer]
    · cases h
      simp [hardStateAfter, Raft.hardState, newer, Nat.max_eq_right (Nat.le_of_lt newer)]
  · simp only [newer, if_false]
    refine Casts.keeps ?_
    simp [Raft.hardState, Nat.max_eq_left (Nat.le_of_not_lt newer)]

theorem startElection_casts (self : ID) :
    Casts r (r.startElection self).2.1 (some (r.startElection self).1) :=
  ⟨⟨Or.inl (Nat.lt_succ_self r.term), trivial⟩, fun _ h => by cases h; rfl⟩

theorem beginCampaign_casts (self : ID) (skipPreVote : Bool) :
    Casts r (r.beginCampaign self skipPreVote).2.1 (some (r.beginCampaign self skipPreVote).1) := by
  simp only [Raft.beginCampaign]
  split
  · exact Casts.keeps rfl
  · split
    · exact startElection_casts r self
    · exact Casts.keeps rfl

theorem afterPreVote_casts (self : ID) (req : RequestVoteRequest ID) :
    Casts r (r.afterPreVote self req).2.1 (some (r.afterPreVote self req).1) := by
  simp only [Raft.afterPreVote]
  split
  · exact Casts.keeps rfl
  · exact startElection_casts r self

theorem learnCommit_hardState (req : AppendEntriesRequest ID) :
    (r.learnCommit req).hardState = r.hardState := by
  simp only [Raft.learnCommit]
  split <;> rfl

theorem storeEntries_casts (req : AppendEntriesRequest ID) (entries : List Entry) :
    Casts r (r.storeEntries req entries).1 ((r.storeEntries req entries).2.map Prod.fst) := by
  simp only [Raft.storeEntries]
  split
  · exact Casts.panics r
  · split
    · exact Casts.panics r
    · exact Casts.entries _ (learnCommit_hardState _ req)

theorem checkEntries_casts (req : AppendEntriesRequest ID) (prevIndex : Nat)
    (entries : List Entry) :
    Casts r (r.checkEntries req prevIndex entries).1
      ((r.checkEntries req prevIndex entries).2.map Prod.fst) := by
  simp only [Raft.checkEntries]
  split
  · exact Casts.refl r
  · split
    · exact Casts.refl r
    · exact storeEntries_casts r req entries

theorem appendEntriesLocked_casts (req : AppendEntriesRequest ID) :
    Casts r (r.appendEntriesLocked req).1 ((r.appendEntriesLocked req).2.map Prod.fst) := by
  simp only [Raft.appendEntriesLocked]
  split
  · split
    · exact Casts.refl r
    · exact checkEntries_casts r req _ _
  · exact checkEntries_casts r req _ _

theorem installSnapshotLocked_casts (req : InstallSnapshotRequest ID) :
    Casts r (r.installSnapshotLocked req).2 (some (r.installSnapshotLocked req).1) := by
  simp only [Raft.installSnapshotLocked]
  split
  · exact Casts.refl r
  · exact ⟨trivial, fun _ h => by cases h; rfl⟩

variable [DecidableEq ID]

theorem advanceCommitLocked_hardState (cfg : Config ID) (self : ID) :
    (r.advanceCommitLocked cfg self).hardState = r.hardState := by
  rw [Raft.advanceCommitLocked_eq]
  rfl

theorem grantVoteLocked_casts (req : RequestVoteRequest ID) :
    Casts r (r.grantVoteLocked req).2.1 (some (r.grantVoteLocked req).1) := by
  simp only [Raft.grantVoteLocked]
  split
  · next granted => exact Casts.hardState (Or.inr ⟨rfl, granted.1⟩)
  · exact Casts.refl r

theorem handleRequestVote_casts (req : RequestVoteRequest ID) (recent : Bool) :
    Casts r (r.handleRequestVote req recent).2.1 (some (r.handleRequestVote req recent).1) := by
  simp only [Raft.handleRequestVote]
  split
  · exact Casts.refl r
  · split
    · exact Casts.refl r
    · split
      · exact (becomeFollowerLocked_casts r req.term none).trans (grantVoteLocked_casts _ req)
      · exact grantVoteLocked_casts r req

theorem handleVoteReply_casts (peer : ID) (req : RequestVoteRequest ID)
    (resp : RequestVoteResponse) :
    Casts r (r.handleVoteReply peer req resp).2 (some (r.handleVoteReply peer req resp).1) := by
  have adopted : Casts r
      (if r.term < resp.term then r.becomeFollowerLocked resp.term none else (r, [])).2
      (some (if r.term < resp.term then r.becomeFollowerLocked resp.term none else (r, [])).1) := by
    split
    · exact becomeFollowerLocked_casts r resp.term none
    · exact Casts.refl r
  simp only [Raft.handleVoteReply]
  split
  · split
    · exact adopted.congr rfl
    · exact adopted
  · exact adopted

theorem followLocked_casts (term : Nat) (leader : ID) :
    Casts r (r.followLocked term leader).2 (some (r.followLocked term leader).1) := by
  simp only [Raft.followLocked]
  split
  · exact becomeFollowerLocked_casts r term (some leader)
  · exact Casts.refl r

theorem onReply_casts (respTerm reqTerm : Nat) (peer : ID) (sentAt : Nat)
    (handle : Raft ID → Raft ID) (same : ∀ r', (handle r').hardState = r'.hardState) :
    Casts r (r.onReply respTerm reqTerm peer sentAt handle).2
      (some (r.onReply respTerm reqTerm peer sentAt handle).1) := by
  simp only [Raft.onReply]
  split
  · exact becomeFollowerLocked_casts r respTerm none
  · split
    · exact Casts.refl r
    · refine Casts.keeps ((same _).trans ?_)
      simp only [Raft.recordAckLocked]
      split <;> rfl

theorem handleAppendReply_casts (cfg : Config ID) (self peer : ID) (sentAt : Nat)
    (req : AppendEntriesRequest ID) (resp : AppendEntriesResponse) :
    Casts r (r.handleAppendReply cfg self peer sentAt req resp).2
      (some (r.handleAppendReply cfg self peer sentAt req resp).1) := by
  refine onReply_casts r _ _ peer sentAt _ fun r' => ?_
  simp only [Raft.appendReplyLocked]
  split
  · split
    · exact advanceCommitLocked_hardState _ cfg self
    · rfl
  · rfl

theorem handleInstallReply_casts (cfg : Config ID) (self peer : ID) (sentAt : Nat)
    (req : InstallSnapshotRequest ID) (resp : InstallSnapshotResponse) :
    Casts r (r.handleInstallReply cfg self peer sentAt req resp).2
      (some (r.handleInstallReply cfg self peer sentAt req resp).1) := by
  refine onReply_casts r _ _ peer sentAt _ fun r' => ?_
  simp only [Raft.installReplyLocked]
  split
  · exact advanceCommitLocked_hardState { r' with matchIndex := _ } cfg self
  · rfl

theorem becomeLeaderLocked_casts (cfg : Config ID) (self : ID) (now : Nat) :
    Casts r (r.becomeLeaderLocked cfg self now).1 (r.becomeLeaderLocked cfg self now).2 := by
  simp only [Raft.becomeLeaderLocked]
  split
  · exact Casts.panics r
  · exact Casts.entries _ (advanceCommitLocked_hardState _ cfg self)

theorem afterElection_casts (cfg : Config ID) (self : ID) (req : RequestVoteRequest ID)
    (now : Nat) :
    Casts r (r.afterElection cfg self req now).1 (r.afterElection cfg self req now).2 := by
  simp only [Raft.afterElection]
  split
  · have elected := becomeLeaderLocked_casts r.endCampaign cfg self now
    exact ⟨elected.lawful, elected.after⟩
  · exact Casts.keeps rfl

theorem appendProposals_casts (cfg : Config ID) (self : ID) (batch : List Proposal) :
    Casts r (r.appendProposals cfg self batch).1 (r.appendProposals cfg self batch).2 := by
  simp only [Raft.appendProposals]
  split
  · exact Casts.keeps rfl
  · split
    · exact Casts.panics r
    · exact Casts.entries _ (advanceCommitLocked_hardState _ cfg self)

theorem handleAppendEntries_casts (req : AppendEntriesRequest ID) :
    Casts r (r.handleAppendEntries req).1 ((r.handleAppendEntries req).2.map Prod.fst) := by
  simp only [Raft.handleAppendEntries]
  split
  · exact Casts.refl r
  · exact (followLocked_casts r req.term req.leaderId).trans (appendEntriesLocked_casts _ req)

theorem handleInstallSnapshot_casts (req : InstallSnapshotRequest ID) :
    Casts r (r.handleInstallSnapshot req).2.1 (some (r.handleInstallSnapshot req).1) := by
  simp only [Raft.handleInstallSnapshot]
  split
  · exact Casts.refl r
  · exact (followLocked_casts r req.term req.leaderId).trans (installSnapshotLocked_casts _ req)

end Regions

theorem startTransfer_hardState [DecidableEq ID] {r r' : Raft ID} {t : Transfer ID}
    {cfg : Config ID} {self target : ID} {now : Nat}
    (h : r.startTransfer cfg self target now = some (r', t)) : r'.hardState = r.hardState := by
  simp only [Raft.startTransfer] at h
  split at h
  · cases h
  · split at h
    · cases h
    · split at h
      · cases h
      · cases h; rfl

theorem answer_hardState (r : Raft ID) (a : Entry × Bytes) :
    (r.answer a).hardState = r.hardState := by
  simp only [Raft.answer]
  split <;> rfl

theorem finishBatch_hardState (r : Raft ID) (results : List (Entry × Bytes)) (last : Nat) :
    (r.finishBatch results last).hardState = r.hardState := by
  have folded : (results.foldl Raft.answer r).hardState = r.hardState := by
    induction results generalizing r with
    | nil => rfl
    | cons a results ih => exact (ih (r.answer a)).trans (answer_hardState r a)
  exact folded

/-- The locked state an outcome ends in. -/
def Outcome.raft (out : Outcome ID σ) : Option (Raft ID) := out.next.map fun x => x.1.raft

theorem tryLock_raft (p : Process ID σ) (result : List (StorageOp ID) × Option (Raft ID)) :
    (p.tryLock result).raft = result.2 := by
  obtain ⟨ops, result⟩ := result
  cases result <;> rfl

variable [DecidableEq ID] {cfg : Config ID} {self : ID} {M : StateMachine σ} {T : Transport}
  {p : Process ID σ} {out : Outcome ID σ}

/-- Every action treats term and vote lawfully. -/
theorem effect_casts {a : Action ID} (h : Effect cfg self M T p a out) :
    Casts p.raft out.ops out.raft := by
  cases h with
  | checkQuorum running leads =>
      simp only [Process.lock, Outcome.raft, Raft.checkQuorumLocked, Option.map_some]
      split
      · exact Casts.refl _
      · exact becomeFollowerLocked_casts _ _ _
  | electionTimeout running idle =>
      refine Casts.keeps ?_
      simp only [Raft.electionTimeout]
      split <;> rfl
  | campaign starting => exact beginCampaign_casts _ _ _
  | wonPreVote round won trial => exact afterPreVote_casts _ _ _
  | wonElection round won real later =>
      rw [tryLock_raft]
      exact afterElection_casts p.raft cfg self _ _
  | abandonCampaign round => exact Casts.keeps rfl
  | requestVote => exact handleRequestVote_casts _ _ _
  | voteReply => exact handleVoteReply_casts _ _ _ _
  | timeoutNow =>
      refine Casts.keeps ?_
      simp only [Raft.handleTimeoutNow]
      split <;> rfl
  | @appendEntries sentAt req =>
      have handled := handleAppendEntries_casts p.raft req
      refine ⟨handled.lawful, fun r' hr => handled.after r' ?_⟩
      rw [← hr]
      simp only [Outcome.raft, Option.map_map]
      rfl
  | appendReply => exact handleAppendReply_casts _ _ _ _ _ _ _
  | installSnapshot => exact handleInstallSnapshot_casts _ _
  | installReply => exact handleInstallReply_casts _ _ _ _ _ _ _
  | appendProposals nonempty there batch =>
      rw [tryLock_raft]
      exact appendProposals_casts _ _ _ _
  | startTransfer later started => exact Casts.keeps (startTransfer_hardState started)
  | endTransfer active =>
      refine Casts.keeps ?_
      simp only [Raft.endTransfer]
      split <;> rfl
  | stop =>
      refine Casts.keeps ?_
      simp only [Raft.stop]
      split <;> rfl
  | finishBatch stage final => exact Casts.keeps (finishBatch_hardState _ _ _)
  | @saveFailed index term data durable stage =>
      cases durable with
      | false => exact Casts.refl _
      | true => exact ⟨trivial, fun _ hr => by cases hr; rfl⟩
  | saveSnapshot stage => exact ⟨trivial, fun _ hr => by cases hr; rfl⟩
  | replicatePanic | takePanic | restorePanic | applyPanic | finishPanic => exact Casts.panics _
  | replicate | readSnapshot | send | propose | readIndex | refuseRead | startRead | checkRead
  | abandonRead | targetReady | sendTimeoutNow | takeSnapshot | takeEntries | restore
  | finishRestore | skip | apply | snapshotFailed | snapshot | snapshotOvertaken | snapshotTerm | compact =>
      exact Casts.keeps rfl

end EdgeKV
