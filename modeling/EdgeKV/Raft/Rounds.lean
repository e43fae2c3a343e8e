import EdgeKV.Raft.Voting

/-!
What the locked regions of a replica leave alone. Almost all leave its elections
alone, and what it owes to clients; for elections the others begin a round, count
one vote, or win.
-/
namespace EdgeKV

variable {ID σ : Type}

/-- A region that neither counts votes nor starts a round, and after which only a
leader of the same term leads. -/
structure Calm (r r' : Raft ID) : Prop where
  campaigning : r'.campaigning = r.campaigning
  leads : r'.state = .leader → r.state = .leader ∧ r'.term = r.term

namespace Calm

theorem refl (r : Raft ID) : Calm r r := ⟨rfl, fun h => ⟨h, rfl⟩⟩

theorem trans {r r' r'' : Raft ID} (h : Calm r r') (h' : Calm r' r'') : Calm r r'' where
  campaigning := h'.campaigning.trans h.campaigning
  leads := fun leads =>
    have mid := h'.leads leads
    ⟨(h.leads mid.1).1, mid.2.trans (h.leads mid.1).2⟩

/-- Only campaign, role and term matter. -/
theorem of_eq {r r' : Raft ID} (campaigning : r'.campaigning = r.campaigning)
    (state : r'.state = r.state) (term : r'.term = r.term) : Calm r r' :=
  ⟨campaigning, fun h => ⟨state ▸ h, term⟩⟩

end Calm

/-- A region that takes on no proposal, confirms none, and neither applies entries nor
hears from a peer. -/
structure Steady (r r' : Raft ID) : Prop where
  waiters : ∀ w ∈ r'.waiters, w ∈ r.waiters
  done : ∀ q result, (q, .ok result) ∈ r'.done → (q, .ok result) ∈ r.done
  applied : r'.lastApplied = r.lastApplied
  acked : r'.ackedSendTime = r.ackedSendTime

namespace Steady

theorem of_eq {r r' : Raft ID} (waiters : r'.waiters = r.waiters) (done : r'.done = r.done)
    (applied : r'.lastApplied = r.lastApplied) (acked : r'.ackedSendTime = r.ackedSendTime) :
    Steady r r' :=
  ⟨fun _ h => waiters ▸ h, fun _ _ h => done ▸ h, applied, acked⟩

theorem refl (r : Raft ID) : Steady r r := of_eq rfl rfl rfl rfl

theorem trans {r r' r'' : Raft ID} (h : Steady r r') (h' : Steady r' r'') : Steady r r'' where
  waiters w hw := h.waiters w (h'.waiters w hw)
  done q result hq := h.done q result (h'.done q result hq)
  applied := h'.applied.trans h.applied
  acked := h'.acked.trans h.acked

end Steady

/-- What was sent on a `done` channel stays sent, and what is sent anew goes to a
proposal that was waiting and is not any more. -/
structure Settles (r r' : Raft ID) : Prop where
  settled : ∃ told, r'.done = r.done ++ told ∧
    (r'.waiters.map (·.2.id) ++ told.map (·.1.id)).Subperm (r.waiters.map (·.2.id))

namespace Settles

theorem of_eq {r r' : Raft ID} (waiters : r'.waiters = r.waiters) (done : r'.done = r.done) :
    Settles r r' := by
  refine ⟨[], by rw [done, List.append_nil], ?_⟩
  rw [waiters, List.map_nil, List.append_nil]

theorem refl (r : Raft ID) : Settles r r := of_eq rfl rfl

theorem trans {r r' r'' : Raft ID} (h : Settles r r') (h' : Settles r' r'') : Settles r r'' := by
  obtain ⟨told, done, moved⟩ := h
  obtain ⟨told', done', moved'⟩ := h'
  refine ⟨told ++ told', by rw [done', done, List.append_assoc], ?_⟩
  have later := (List.subperm_append_right (told.map (·.1.id))).mpr moved'
  refine (List.Perm.subperm ?_).trans (later.trans moved)
  rw [List.map_append, List.append_assoc]
  exact List.Perm.append_left _ List.perm_append_comm

/-- All who wait are given up. -/
theorem failed {r r' : Raft ID} {err : RaftError ID} (waiters : r'.waiters = [])
    (done : r'.done = r.done ++ r.waiters.map fun w => (w.2, .error err)) : Settles r r' := by
  refine ⟨_, done, List.Perm.subperm ?_⟩
  rw [waiters, List.map_map]
  exact List.Perm.refl _

end Settles

/-- A region that leaves both elections and clients alone. -/
structure Quiet (r r' : Raft ID) : Prop extends Calm r r', Steady r r', Settles r r'

namespace Quiet

theorem refl (r : Raft ID) : Quiet r r := ⟨.refl r, .refl r, .refl r⟩

theorem trans {r r' r'' : Raft ID} (h : Quiet r r') (h' : Quiet r' r'') : Quiet r r'' :=
  ⟨h.toCalm.trans h'.toCalm, h.toSteady.trans h'.toSteady, h.toSettles.trans h'.toSettles⟩

/-- Only campaign, role, term and what concerns clients and peers matter. -/
theorem of_eq {r r' : Raft ID} (campaigning : r'.campaigning = r.campaigning)
    (state : r'.state = r.state) (term : r'.term = r.term) (waiters : r'.waiters = r.waiters)
    (done : r'.done = r.done) (applied : r'.lastApplied = r.lastApplied)
    (acked : r'.ackedSendTime = r.ackedSendTime) : Quiet r r' :=
  ⟨.of_eq campaigning state term, .of_eq waiters done applied acked, .of_eq waiters done⟩

end Quiet

section Regions

variable (r : Raft ID)

/-- Only errors are sent when proposals are given up. -/
theorem refused_done {α : Type} {done : List (Proposal × Except (RaftError ID) Bytes)}
    {refused : List α} {f : α → Proposal} {err : RaftError ID} {q : Proposal} {result : Bytes}
    (h : (q, .ok result) ∈ done ++ refused.map fun w => (f w, .error err)) :
    (q, .ok result) ∈ done := by
  rcases List.mem_append.mp h with old | new
  · exact old
  · obtain ⟨w, -, eq⟩ := List.mem_map.mp new
    cases eq

theorem becomeFollowerLocked_quiet (term : Nat) (leader : Option ID) :
    Quiet r (r.becomeFollowerLocked term leader).1 := by
  rw [Raft.becomeFollowerLocked_eq]
  refine ⟨⟨rfl, fun h => by cases h⟩, ⟨?_, ?_, rfl, rfl⟩, ?_⟩
  · intro w hw
    simp only at hw
    split at hw
    · cases hw
    · exact hw
  · intro q result h
    simp only at h
    split at h
    · exact refused_done h
    · exact h
  · by_cases leads : r.state = .leader
    · simp only [leads, if_true]
      exact .failed rfl rfl
    · simp only [leads, if_false]
      exact .of_eq rfl rfl

theorem storeEntries_quiet (req : AppendEntriesRequest ID) (entries : List Entry) :
    ∀ x, (r.storeEntries req entries).2 = some x → Quiet r x.1 := by
  intro x h
  simp only [Raft.storeEntries] at h
  split at h
  · cases h
  · split at h
    · cases h
    · cases h
      simp only [Raft.learnCommit]
      split <;> exact Quiet.of_eq rfl rfl rfl rfl rfl rfl rfl

theorem appendEntriesLocked_quiet (req : AppendEntriesRequest ID) :
    ∀ x, (r.appendEntriesLocked req).2 = some x → Quiet r x.1 := by
  have check (prevIndex : Nat) (entries : List Entry) :
      ∀ x, (r.checkEntries req prevIndex entries).2 = some x → Quiet r x.1 := by
    intro x h
    simp only [Raft.checkEntries] at h
    split at h
    · cases h; exact Quiet.refl r
    · split at h
      · cases h; exact Quiet.refl r
      · exact storeEntries_quiet r req entries x h
  intro x h
  simp only [Raft.appendEntriesLocked] at h
  split at h
  · split at h
    · cases h; exact Quiet.refl r
    · exact check _ _ x h
  · exact check _ _ x h

/-- A follower that stores entries, or refuses to, keeps its role and its term. -/
theorem storeEntries_role {req : AppendEntriesRequest ID} {entries : List Entry} {r' : Raft ID}
    {resp : AppendEntriesResponse} (h : (r.storeEntries req entries).2 = some (r', resp)) :
    r'.state = r.state ∧ r'.term = r.term := by
  simp only [Raft.storeEntries] at h
  split at h
  · cases h
  · split at h
    · cases h
    · cases h
      simp only [Raft.learnCommit]
      split <;> exact ⟨rfl, rfl⟩

theorem appendEntriesLocked_role {req : AppendEntriesRequest ID} {r' : Raft ID}
    {resp : AppendEntriesResponse} (h : (r.appendEntriesLocked req).2 = some (r', resp)) :
    r'.state = r.state ∧ r'.term = r.term := by
  have check {prevIndex : Nat} {entries : List Entry}
      (h : (r.checkEntries req prevIndex entries).2 = some (r', resp)) :
      r'.state = r.state ∧ r'.term = r.term := by
    simp only [Raft.checkEntries] at h
    split at h
    · cases h; exact ⟨rfl, rfl⟩
    · split at h
      · cases h; exact ⟨rfl, rfl⟩
      · exact storeEntries_role r h
  simp only [Raft.appendEntriesLocked] at h
  split at h
  · split at h
    · cases h; exact ⟨rfl, rfl⟩
    · exact check h
  · exact check h

theorem installSnapshotLocked_role (req : InstallSnapshotRequest ID) :
    (r.installSnapshotLocked req).1.state = r.state ∧
      (r.installSnapshotLocked req).1.term = r.term := by
  simp only [Raft.installSnapshotLocked]
  split <;> exact ⟨rfl, rfl⟩

theorem finishBatch_calm (results : List (Entry × Bytes)) (last : Nat) :
    Calm r (r.finishBatch results last) := by
  have folded : Calm r (results.foldl Raft.answer r) := by
    induction results generalizing r with
    | nil => exact Calm.refl r
    | cons a results ih =>
        have one : Calm r (r.answer a) := by
          simp only [Raft.answer]
          split <;> exact Calm.of_eq rfl rfl rfl
        exact one.trans (ih (r.answer a))
  exact folded.trans (Calm.of_eq rfl rfl rfl)

variable [DecidableEq ID]

theorem handleRequestVote_quiet (req : RequestVoteRequest ID) (recent : Bool) :
    Quiet r (r.handleRequestVote req recent).1 := by
  have grant (r : Raft ID) : Quiet r (r.grantVoteLocked req).1 := by
    simp only [Raft.grantVoteLocked]
    split <;> exact Quiet.of_eq rfl rfl rfl rfl rfl rfl rfl
  simp only [Raft.handleRequestVote]
  split
  · exact Quiet.refl r
  · split
    · exact Quiet.refl r
    · split
      · exact (becomeFollowerLocked_quiet r req.term none).trans (grant _)
      · exact grant r

theorem followLocked_quiet (term : Nat) (leader : ID) :
    Quiet r (r.followLocked term leader).1 := by
  simp only [Raft.followLocked]
  split
  · exact becomeFollowerLocked_quiet r term (some leader)
  · exact Quiet.refl r

theorem handleAppendEntries_quiet (req : AppendEntriesRequest ID) :
    ∀ x, (r.handleAppendEntries req).2 = some x → Quiet r x.1 := by
  intro x h
  simp only [Raft.handleAppendEntries] at h
  split at h
  · cases h; exact Quiet.refl r
  · exact (followLocked_quiet r req.term req.leaderId).trans (appendEntriesLocked_quiet _ req x h)

theorem handleInstallSnapshot_quiet (req : InstallSnapshotRequest ID) :
    Quiet r (r.handleInstallSnapshot req).1 := by
  simp only [Raft.handleInstallSnapshot]
  split
  · exact Quiet.refl r
  · refine (followLocked_quiet r req.term req.leaderId).trans ?_
    simp only [Raft.installSnapshotLocked]
    split <;> exact Quiet.of_eq rfl rfl rfl rfl rfl rfl rfl

theorem advanceCommitLocked_quiet (cfg : Config ID) (self : ID) :
    Quiet r (r.advanceCommitLocked cfg self) := by
  rw [Raft.advanceCommitLocked_eq]
  exact Quiet.of_eq rfl rfl rfl rfl rfl rfl rfl

theorem appendReplyLocked_quiet (cfg : Config ID) (self peer : ID)
    (req : AppendEntriesRequest ID) (resp : AppendEntriesResponse) :
    Quiet r (r.appendReplyLocked cfg self peer req resp) := by
  simp only [Raft.appendReplyLocked]
  split
  · split
    · refine Quiet.trans ?_ (advanceCommitLocked_quiet _ cfg self)
      exact Quiet.of_eq rfl rfl rfl rfl rfl rfl rfl
    · exact Quiet.refl r
  · exact Quiet.of_eq rfl rfl rfl rfl rfl rfl rfl

theorem installReplyLocked_quiet (cfg : Config ID) (self peer : ID)
    (req : InstallSnapshotRequest ID) : Quiet r (r.installReplyLocked cfg self peer req) := by
  simp only [Raft.installReplyLocked, Raft.advanceCommitLocked_eq]
  split <;> exact Quiet.of_eq rfl rfl rfl rfl rfl rfl rfl

theorem startTransfer_quiet {r' : Raft ID} {t : Transfer ID} {cfg : Config ID} {self target : ID}
    {now : Nat} (h : r.startTransfer cfg self target now = some (r', t)) : Quiet r r' := by
  simp only [Raft.startTransfer] at h
  split at h
  · cases h
  · split at h
    · cases h
    · split at h
      · cases h
      · cases h; exact Quiet.of_eq rfl rfl rfl rfl rfl rfl rfl

theorem onReply_calm (respTerm reqTerm : Nat) (peer : ID) (sentAt : Nat)
    (handle : Raft ID → Raft ID) (calm : ∀ r', Calm r' (handle r')) :
    Calm r (r.onReply respTerm reqTerm peer sentAt handle).1 := by
  simp only [Raft.onReply]
  split
  · exact (becomeFollowerLocked_quiet r respTerm none).toCalm
  · split
    · exact Calm.refl r
    · refine Calm.trans ?_ (calm _)
      simp only [Raft.recordAckLocked]
      split <;> exact Calm.of_eq rfl rfl rfl

theorem appendProposals_calm (cfg : Config ID) (self : ID) (batch : List Proposal) :
    ∀ r', (r.appendProposals cfg self batch).2 = some r' → Calm r r' := by
  intro r' h
  simp only [Raft.appendProposals] at h
  split at h
  · cases h; exact Calm.of_eq rfl rfl rfl
  · split at h
    · cases h
    · cases h
      refine Calm.trans ?_ (advanceCommitLocked_quiet _ cfg self).toCalm
      exact Calm.of_eq rfl rfl rfl

end Regions

/-- What an action that ends in `r'` does to the elections of its node. -/
inductive Turn (cfg : Config ID) (self : ID) (r : Raft ID) (a : Action ID)
    (ops : List (StorageOp ID)) (r' : Raft ID) : Prop
  | calm (h : Calm r r')
  | idle (trial : ∀ req granted, r'.campaigning = some (.collecting req granted) →
        req.preVote = true)
      (state : r'.state = r.state) (term : r'.term = r.term)
  | stood (req : RequestVoteRequest ID) (round : r'.campaigning = some (.collecting req []))
      (own : req.candidateId = self) (saved : .hardState ⟨req.term, some self⟩ ∈ ops)
      (state : r'.state = .candidate)
  | counted (peer : ID) (req : RequestVoteRequest ID) (resp : RequestVoteResponse)
      (granted : List ID) (answered : a = .election (.voteReply peer req resp))
      (yes : resp.voteGranted = true) (first : peer ∉ granted)
      (before : r.campaigning = some (.collecting req granted))
      (round : r'.campaigning = some (.collecting req (peer :: granted)))
      (leads : r'.state = .leader → r.state = .leader ∧ r'.term = r.term)
  | won (req : RequestVoteRequest ID) (granted : List ID)
      (round : r.campaigning = some (.collecting req granted))
      (majority : cfg.quorum ≤ 1 + granted.length) (real : req.preVote = false)
      (ended : r'.campaigning = none) (term : r'.term = req.term)

section Turns

variable {cfg : Config ID} {self : ID} {a : Action ID} {ops : List (StorageOp ID)} (r : Raft ID)

theorem endCampaign_turn : Turn cfg self r a ops r.endCampaign :=
  .idle (fun _ _ h => by cases h) rfl rfl

theorem startElection_turn :
    Turn cfg self r a (r.startElection self).2.1 (r.startElection self).1 :=
  .stood _ rfl rfl (List.mem_cons_self ..) rfl

theorem beginCampaign_turn (skipPreVote : Bool) :
    Turn cfg self r a (r.beginCampaign self skipPreVote).2.1
      (r.beginCampaign self skipPreVote).1 := by
  simp only [Raft.beginCampaign]
  split
  · exact endCampaign_turn r
  · split
    · exact startElection_turn r
    · exact .idle (fun req granted h => by cases h; rfl) rfl rfl

theorem afterPreVote_turn (req : RequestVoteRequest ID) :
    Turn cfg self r a (r.afterPreVote self req).2.1 (r.afterPreVote self req).1 := by
  simp only [Raft.afterPreVote]
  split
  · exact endCampaign_turn r
  · exact startElection_turn r

theorem tryLock_next {p' q : Process ID σ} {sent : List (Msg ID)}
    {result : List (StorageOp ID) × Option (Raft ID)}
    (h : (q.tryLock result).next = some (p', sent)) :
    result.2 = some p'.raft ∧ p' = { q with raft := p'.raft } ∧ sent = [] := by
  obtain ⟨r', eq, hr⟩ := Option.map_eq_some_iff.mp h
  cases hr
  exact ⟨eq, rfl, rfl⟩

variable [DecidableEq ID]

theorem handleVoteReply_turn (peer : ID) (req : RequestVoteRequest ID)
    (resp : RequestVoteResponse) :
    Turn cfg self r (.election (.voteReply peer req resp)) ops
      (r.handleVoteReply peer req resp).1 := by
  have adopted : Calm r
      (if r.term < resp.term then r.becomeFollowerLocked resp.term none else (r, [])).1 := by
    split
    · exact (becomeFollowerLocked_quiet r resp.term none).toCalm
    · exact Calm.refl r
  simp only [Raft.handleVoteReply]
  split
  next round granted before =>
    rw [adopted.campaigning] at before
    split
    next counts =>
      obtain ⟨rfl, yes, first⟩ := counts
      exact .counted peer round resp granted rfl yes first before rfl adopted.leads
    · exact .calm adopted
  · exact .calm adopted

theorem afterElection_turn {req : RequestVoteRequest ID} {granted : List ID} {now : Nat}
    (round : r.campaigning = some (.collecting req granted))
    (majority : cfg.quorum ≤ 1 + granted.length) (real : req.preVote = false) :
    ∀ r', (r.afterElection cfg self req now).2 = some r' → Turn cfg self r a ops r' := by
  intro r' h
  simp only [Raft.afterElection] at h
  split at h
  next still =>
    simp only [Raft.becomeLeaderLocked] at h
    split at h
    · cases h
    · cases h
      refine .won req granted round majority real ?_ ?_
      · rw [Raft.advanceCommitLocked_eq]; rfl
      · rw [Raft.advanceCommitLocked_eq]; exact still.2.2
  · cases h
    exact endCampaign_turn r

variable {M : StateMachine σ} {T : Transport} {p p' : Process ID σ} {out : Outcome ID σ}
  {sent : List (Msg ID)}

theorem effect_turn (h : Effect cfg self M T p a out) (next : out.next = some (p', sent)) :
    Turn cfg self p.raft a out.ops p'.raft := by
  cases h with
  | checkQuorum running leads =>
      cases next
      refine .calm ?_
      simp only [Raft.checkQuorumLocked]
      split
      · exact Calm.refl _
      · exact (becomeFollowerLocked_quiet _ _ _).toCalm
  | electionTimeout running idle =>
      cases next
      simp only [Raft.electionTimeout]
      split
      · exact .calm (Calm.refl _)
      · exact .idle (fun _ _ h => by cases h) rfl rfl
  | campaign starting => cases next; exact beginCampaign_turn _ _
  | wonPreVote round won trial => cases next; exact afterPreVote_turn _ _
  | wonElection round won real later =>
      exact afterElection_turn p.raft round won real p'.raft (tryLock_next next).1
  | abandonCampaign round => cases next; exact endCampaign_turn _
  | requestVote => cases next; exact .calm (handleRequestVote_quiet _ _ _).toCalm
  | voteReply => cases next; exact handleVoteReply_turn _ _ _ _
  | timeoutNow =>
      cases next
      simp only [Raft.handleTimeoutNow]
      split
      · exact .idle (fun _ _ h => by cases h) rfl rfl
      · exact .calm (Calm.refl _)
  | appendEntries =>
      obtain ⟨x, handled, hx⟩ := Option.map_eq_some_iff.mp next
      cases hx
      exact .calm (handleAppendEntries_quiet _ _ x handled).toCalm
  | appendReply =>
      cases next
      exact .calm (onReply_calm _ _ _ _ _ _ fun r' =>
        (appendReplyLocked_quiet r' _ _ _ _ _).toCalm)
  | installSnapshot => cases next; exact .calm (handleInstallSnapshot_quiet _ _).toCalm
  | installReply =>
      cases next
      exact .calm (onReply_calm _ _ _ _ _ _ fun r' =>
        (installReplyLocked_quiet r' _ _ _ _).toCalm)
  | appendProposals nonempty there batch =>
      exact .calm (appendProposals_calm p.raft cfg self _ p'.raft (tryLock_next next).1)
  | startTransfer later started => cases next; exact .calm (startTransfer_quiet _ started).toCalm
  | endTransfer active =>
      cases next
      refine .calm ?_
      simp only [Raft.endTransfer]
      split <;> exact Calm.of_eq rfl rfl rfl
  | stop =>
      cases next
      refine .calm ?_
      simp only [Raft.stop]
      split <;> exact Calm.of_eq rfl rfl rfl
  | finishBatch stage final => cases next; exact .calm (finishBatch_calm _ _ _)
  | replicatePanic | takePanic | restorePanic | applyPanic | finishPanic => cases next
  | replicate | readSnapshot | send | propose | readIndex | refuseRead | startRead | checkRead
  | abandonRead | targetReady | sendTimeoutNow | takeSnapshot | takeEntries | restore
  | finishRestore | skip | apply | snapshotFailed | snapshot | snapshotOvertaken | snapshotTerm
  | saveFailed | saveSnapshot | compact =>
      cases next
      exact .calm (Calm.of_eq rfl rfl rfl)

end Turns
end EdgeKV
