import EdgeKV.Raft.Rounds

/-!
Where things come from. An entry that an action saves is a no-op, a proposal that was
waiting to be appended, or part of a request; a proposal or a read that is waiting
was handed in by a client.
-/
namespace EdgeKV

variable {ID σ : Type}

section Saved

variable (r : Raft ID)

theorem persistLocked_entries {es : List Entry} {e : Entry}
    (h : .entry e ∈ r.persistLocked false es) : e ∈ es := by
  simp only [Raft.persistLocked, save, Bool.false_eq_true, if_false] at h
  obtain ⟨e', there, eq⟩ := List.mem_map.mp h
  cases eq
  exact there

theorem persistLocked_hardState (e : Entry) : .entry e ∉ r.persistLocked true [] := by
  simp [Raft.persistLocked, save]

theorem becomeFollowerLocked_entries (term : Nat) (leader : Option ID) (e : Entry) :
    .entry e ∉ (r.becomeFollowerLocked term leader).2 := by
  rw [Raft.becomeFollowerLocked_eq]
  simp only
  split <;> simp

theorem mergeEntries_fresh {l l' : RaftLog} {es fresh : List Entry}
    (h : l.mergeEntries es = some (l', fresh)) : ∀ e ∈ fresh, e ∈ es := by
  induction es with
  | nil => cases h; exact fun e he => he
  | cons x es ih =>
      simp only [RaftLog.mergeEntries] at h
      split at h
      · split at h
        · exact fun e he => List.mem_cons_of_mem _ (ih h e he)
        · obtain ⟨kept, -, eq⟩ := Option.map_eq_some_iff.mp h
          cases eq
          exact fun e he => he
      · cases h
        exact fun e he => he

theorem storeEntries_entries {req : AppendEntriesRequest ID} {es : List Entry} {e : Entry}
    (h : .entry e ∈ (r.storeEntries req es).1) : e ∈ es := by
  simp only [Raft.storeEntries] at h
  split at h
  · cases h
  next merged =>
    split at h
    · cases h
    · exact mergeEntries_fresh merged e (persistLocked_entries r h)

theorem checkEntries_entries {req : AppendEntriesRequest ID} {prevIndex : Nat} {es : List Entry}
    {e : Entry} (h : .entry e ∈ (r.checkEntries req prevIndex es).1) : e ∈ es := by
  simp only [Raft.checkEntries] at h
  split at h
  · cases h
  · split at h
    · cases h
    · exact storeEntries_entries r h

theorem appendEntriesLocked_entries {req : AppendEntriesRequest ID} {e : Entry}
    (h : .entry e ∈ (r.appendEntriesLocked req).1) : e ∈ req.entries := by
  simp only [Raft.appendEntriesLocked] at h
  split at h
  · split at h
    · cases h
    · exact List.mem_of_mem_drop (checkEntries_entries r h)
  · exact checkEntries_entries r h

theorem proposalEntries_data {batch : List Proposal} {e : Entry}
    (h : e ∈ r.proposalEntries batch) : ∃ q ∈ batch, e.data = q.data := by
  obtain ⟨k, at_⟩ := List.getElem?_of_mem h
  obtain ⟨q, there, rfl⟩ := r.proposalEntries_at at_
  exact ⟨q, List.mem_of_getElem? there, rfl⟩

theorem installSnapshotLocked_entries (req : InstallSnapshotRequest ID) (e : Entry) :
    .entry e ∉ (r.installSnapshotLocked req).2 := by
  simp only [Raft.installSnapshotLocked]
  split <;> simp

variable [DecidableEq ID]

theorem followLocked_entries (term : Nat) (leader : ID) (e : Entry) :
    .entry e ∉ (r.followLocked term leader).2 := by
  simp only [Raft.followLocked]
  split
  · exact becomeFollowerLocked_entries r _ _ e
  · exact List.not_mem_nil

theorem handleAppendEntries_entries {req : AppendEntriesRequest ID} {e : Entry}
    (h : .entry e ∈ (r.handleAppendEntries req).1) : e ∈ req.entries := by
  simp only [Raft.handleAppendEntries] at h
  split at h
  · cases h
  · rcases List.mem_append.mp h with follow | append
    · exact absurd follow (followLocked_entries r _ _ e)
    · exact appendEntriesLocked_entries _ append

theorem handleInstallSnapshot_entries (req : InstallSnapshotRequest ID) (e : Entry) :
    .entry e ∉ (r.handleInstallSnapshot req).2.1 := by
  simp only [Raft.handleInstallSnapshot]
  split
  · exact List.not_mem_nil
  · intro h
    rcases List.mem_append.mp h with follow | install
    · exact followLocked_entries r _ _ e follow
    · exact installSnapshotLocked_entries _ req e install

theorem handleRequestVote_entries (req : RequestVoteRequest ID) (recent : Bool) (e : Entry) :
    .entry e ∉ (r.handleRequestVote req recent).2.1 := by
  have granted (r' : Raft ID) : .entry e ∉ (r'.grantVoteLocked req).2.1 := by
    simp only [Raft.grantVoteLocked]
    split
    · exact persistLocked_hardState _ e
    · exact List.not_mem_nil
  simp only [Raft.handleRequestVote]
  split
  · exact List.not_mem_nil
  · split
    · exact List.not_mem_nil
    · split
      · intro h
        rcases List.mem_append.mp h with follow | vote
        · exact becomeFollowerLocked_entries r _ _ e follow
        · exact granted _ vote
      · exact granted r

theorem handleVoteReply_entries (peer : ID) (req : RequestVoteRequest ID)
    (resp : RequestVoteResponse) (e : Entry) : .entry e ∉ (r.handleVoteReply peer req resp).2 := by
  have adopted : .entry e ∉
      (if r.term < resp.term then r.becomeFollowerLocked resp.term none else (r, [])).2 := by
    split
    · exact becomeFollowerLocked_entries r _ _ e
    · exact List.not_mem_nil
  simp only [Raft.handleVoteReply]
  split
  · split <;> exact adopted
  · exact adopted

theorem onReply_entries (respTerm reqTerm : Nat) (peer : ID) (sentAt : Nat)
    (handle : Raft ID → Raft ID) (e : Entry) :
    .entry e ∉ (r.onReply respTerm reqTerm peer sentAt handle).2 := by
  simp only [Raft.onReply]
  split
  · exact becomeFollowerLocked_entries r _ _ e
  · split <;> exact List.not_mem_nil

end Saved

/-- The read requests that a process knows of. -/
def Process.readIds (p : Process ID σ) : List Nat :=
  p.readCh ++ (match p.reader with
    | .waiting => []
    | .confirming batch _ _ _ => batch) ++ p.readDone.map Prod.fst

section Effects

theorem answerReads_ids {p : Process ID σ} {batch : List Nat} {term readIndex start id : Nat}
    {answer : Except (RaftError ID) Nat}
    (confirming : p.reader = .confirming batch term readIndex start)
    (h : id ∈ (p.answerReads batch answer).readIds) : id ∈ p.readIds := by
  simp only [Process.readIds, Process.answerReads, confirming, List.map_append, List.map_map,
    List.mem_append] at h ⊢
  rcases h with (left | none) | told | now
  · exact Or.inl (Or.inl left)
  · cases none
  · exact Or.inr told
  · simp only [List.mem_map, Function.comp_apply, exists_eq_right] at now
    exact Or.inl (Or.inr now)

variable [DecidableEq ID] {cfg : Config ID} {self : ID} {M : StateMachine σ} {T : Transport}
  {p p' : Process ID σ} {act : Action ID} {out : Outcome ID σ} {sent : List (Msg ID)}

/-- Where a saved entry comes from. -/
theorem effect_entries (h : Effect cfg self M T p act out) {e : Entry} (saved : .entry e ∈ out.ops) :
    e.type = .noop ∨ (∃ q ∈ p.proposeCh, e.data = q.data) ∨
      ∃ sentAt req, act.input self = some (.appendEntries self sentAt req) ∧ e ∈ req.entries := by
  cases h with
  | checkQuorum running leads =>
      simp only [Process.lock, Raft.checkQuorumLocked] at saved
      split at saved
      · cases saved
      · exact absurd saved (becomeFollowerLocked_entries _ _ _ e)
  | campaign starting =>
      simp only [Process.solicit, Process.lock, Raft.beginCampaign] at saved
      split at saved
      · cases saved
      · split at saved
        · exact absurd saved (persistLocked_hardState _ e)
        · cases saved
  | wonPreVote round won trial =>
      simp only [Process.solicit, Process.lock, Raft.afterPreVote] at saved
      split at saved
      · cases saved
      · exact absurd saved (persistLocked_hardState _ e)
  | wonElection round won real later =>
      simp only [Process.tryLock, Raft.afterElection] at saved
      split at saved
      · simp only [Raft.becomeLeaderLocked] at saved
        split at saved
        · cases saved
        · rw [List.mem_singleton.mp (persistLocked_entries _ saved)]
          exact Or.inl rfl
      · cases saved
  | requestVote => exact absurd saved (handleRequestVote_entries _ _ _ e)
  | voteReply => exact absurd saved (handleVoteReply_entries _ _ _ _ e)
  | appendEntries =>
      exact Or.inr (Or.inr ⟨_, _, rfl, handleAppendEntries_entries _ saved⟩)
  | appendReply => exact absurd saved (onReply_entries _ _ _ _ _ _ e)
  | installSnapshot => exact absurd saved (handleInstallSnapshot_entries _ _ e)
  | installReply => exact absurd saved (onReply_entries _ _ _ _ _ _ e)
  | appendProposals nonempty there batch =>
      simp only [Process.tryLock, Raft.appendProposals] at saved
      split at saved
      · cases saved
      · split at saved
        · cases saved
        · obtain ⟨q, hq, data⟩ := proposalEntries_data _ (persistLocked_entries _ saved)
          exact Or.inr (Or.inl ⟨q, List.mem_of_mem_take hq, data⟩)
  | @saveFailed index term data durable stage =>
      cases durable with
      | false => cases saved
      | true => cases List.mem_singleton.mp saved
  | saveSnapshot stage => cases List.mem_singleton.mp saved
  | electionTimeout | abandonCampaign | timeoutNow | replicatePanic | replicate | readSnapshot | send
  | propose | readIndex | refuseRead | startRead | checkRead | abandonRead | startTransfer
  | targetReady | sendTimeoutNow | endTransfer | stop | takeSnapshot | takePanic | takeEntries | restorePanic
  | restore | finishRestore | skip | applyPanic | apply | finishPanic | finishBatch | snapshotFailed
  | snapshot | snapshotOvertaken | snapshotTerm | compact => cases saved

/-- Proposals that wait to be appended, and reads, were handed in by clients. -/
theorem effect_inbox (h : Effect cfg self M T p act out) (next : out.next = some (p', sent)) :
    (∀ q ∈ p'.proposeCh, q ∈ p.proposeCh ∨
      ∃ id data, act = .client (.propose id data) ∧ q = { id, data }) ∧
    ∀ id ∈ p'.readIds, id ∈ p.readIds ∨ act = .client (.readIndex id) := by
  cases h with
  | wonElection round won real later =>
      obtain ⟨-, eq, -⟩ := tryLock_next next
      rw [eq]
      exact ⟨fun _ => Or.inl, fun _ => Or.inl⟩
  | appendProposals nonempty there batch =>
      obtain ⟨-, eq, -⟩ := tryLock_next next
      rw [eq]
      exact ⟨fun q hq => Or.inl (List.mem_of_mem_drop hq), fun _ => Or.inl⟩
  | appendEntries =>
      obtain ⟨x, handled, hx⟩ := Option.map_eq_some_iff.mp next
      cases hx
      exact ⟨fun _ => Or.inl, fun _ => Or.inl⟩
  | propose running =>
      cases next
      refine ⟨fun q hq => ?_, fun _ => Or.inl⟩
      rcases List.mem_append.mp hq with old | new
      · exact Or.inl old
      · exact Or.inr ⟨_, _, rfl, List.mem_singleton.mp new⟩
  | readIndex running =>
      cases next
      refine ⟨fun _ => Or.inl, fun id hid => ?_⟩
      simp only [Process.readIds, List.mem_append, List.mem_singleton] at hid ⊢
      rcases hid with ((old | rfl) | batch) | told
      · exact Or.inl (Or.inl (Or.inl old))
      · exact Or.inr rfl
      · exact Or.inl (Or.inl (Or.inr batch))
      · exact Or.inl (Or.inr told)
  | @refuseRead count now err waiting later refused =>
      cases next
      refine ⟨fun _ => Or.inl, fun id hid => Or.inl ?_⟩
      have taken {id : Nat} (h : id ∈ p.readCh.drop count ∨ id ∈ p.readCh.take count) :
          id ∈ p.readCh := h.elim List.mem_of_mem_drop List.mem_of_mem_take
      simp only [Process.readIds, Process.answerReads, List.map_append, List.map_map,
        List.mem_append] at hid ⊢
      rcases hid with (left | none) | told | now
      · exact Or.inl (Or.inl (taken (Or.inl left)))
      · cases none
      · exact Or.inr told
      · simp only [List.mem_map, Function.comp_apply, exists_eq_right] at now
        exact Or.inl (Or.inl (taken (Or.inr now)))
  | @startRead count now reader waiting later started =>
      cases next
      refine ⟨fun _ => Or.inl, fun id hid => Or.inl ?_⟩
      simp only [Raft.startRead] at started
      split at started
      · cases started
      · split at started
        · cases started
        · cases started
          simp only [Process.readIds, List.mem_append] at hid ⊢
          rcases hid with (left | batch) | told
          · exact Or.inl (Or.inl (List.mem_of_mem_drop left))
          · exact Or.inl (Or.inl (List.mem_of_mem_take batch))
          · exact Or.inr told
  | checkRead confirming decided =>
      cases next
      exact ⟨fun _ => Or.inl, fun id hid => Or.inl (answerReads_ids confirming hid)⟩
  | abandonRead confirming =>
      cases next
      exact ⟨fun _ => Or.inl, fun id hid => Or.inl (answerReads_ids confirming hid)⟩
  | replicatePanic | takePanic | restorePanic | applyPanic | finishPanic => cases next
  | checkQuorum | electionTimeout | campaign | wonPreVote | abandonCampaign | requestVote | voteReply
  | timeoutNow | replicate | readSnapshot | send | appendReply | installSnapshot | installReply
  | startTransfer | targetReady | sendTimeoutNow | endTransfer | stop | takeSnapshot | takeEntries | restore
  | finishRestore | skip | apply | finishBatch | snapshotFailed | snapshot | snapshotOvertaken
  | snapshotTerm | saveFailed | saveSnapshot | compact =>
      cases next
      exact ⟨fun _ => Or.inl, fun _ => Or.inl⟩

end Effects
end EdgeKV
