import EdgeKV.Raft.Provenance
import EdgeKV.Raft.Indexes

/-!
What an action needs to be carried out. The storage is asked for nothing that it would have to
refuse: the entries that a node saves continue the log that it has on disk, or replace the end of
it. So an action that can begin also ends, unless the state machine fails.
-/
namespace EdgeKV

variable {ID σ : Type}

section Storage

/-- Only an entry can leave a gap. -/
theorem performAll_plain {ops : List (StorageOp ID)} (plain : ∀ e, StorageOp.entry e ∉ ops)
    (s : MemStorage ID) : ∃ s', s.performAll ops = some s' := by
  induction ops generalizing s with
  | nil => exact ⟨s, rfl⟩
  | cons op ops ih =>
      have rest : ∀ e, StorageOp.entry e ∉ ops :=
        fun e there => plain e (List.mem_cons_of_mem op there)
      cases op with
      | hardState hs => exact ih rest _
      | entry e => exact absurd (List.mem_cons_self ..) (plain e)
      | snapshot snapMeta data discardLog => exact ih rest _

/-- Entries that continue the stored log. -/
theorem performAll_continue {L : List Entry} {s : MemStorage ID} (h : Holds L s.log)
    (es : List Entry) (index : ∀ k e, es[k]? = some e → e.index = L.length + 1 + k) :
    ∃ s', s.performAll (es.map .entry) = some s' := by
  induction es generalizing L s with
  | nil => exact ⟨s, rfl⟩
  | cons e es ih =>
      obtain ⟨s₁, performed, held, -⟩ := perform_entry h (index 0 e rfl) h.le (Nat.le_refl _)
      rw [List.take_length] at held
      obtain ⟨s', rest⟩ := ih held fun k e' there => by
        rw [index (k + 1) e' there, List.length_append, List.length_singleton]
        omega
      refine ⟨s', ?_⟩
      rw [List.map_cons, MemStorage.performAll, performed]
      exact rest

theorem performAll_both {s : MemStorage ID} {ops ops' : List (StorageOp ID)}
    (first : ∃ s', s.performAll ops = some s')
    (second : ∀ s', s.performAll ops = some s' → ∃ s'', s'.performAll ops' = some s'') :
    ∃ s', s.performAll (ops ++ ops') = some s' := by
  obtain ⟨s', performed⟩ := first
  obtain ⟨s'', performed'⟩ := second s' performed
  exact ⟨s'', by rw [performAll_append, performed]; exact performed'⟩

end Storage

variable {cfg : Config ID} {n : ID} {M : StateMachine σ} {a : Abs ID} {p : Process ID σ}

section Append

variable {req : AppendEntriesRequest ID} (sound : Sound cfg a) (h : Node M a n p)
  (rel : AppendRel a req)
include sound h rel

/-- What is fresh in a request follows something that is on disk. -/
theorem storeEntries_stored (term : p.raft.term = req.term) {prev : Nat}
    (above : p.raft.rlog.snapIndex ≤ prev)
    (le : prev ≤ req.prevLogIndex + req.entries.length) (inside : prev ≤ (a.log n).length)
    (common : (a.log n).take prev = (a.ledger req.term).take prev) {entries : List Entry}
    (rest : entries =
      ((a.ledger req.term).take (req.prevLogIndex + req.entries.length)).drop prev) :
    ∃ s, p.storage.performAll (p.raft.storeEntries req entries).1 = some s := by
  subst rest
  rw [Raft.storeEntries]
  rcases mergeEntries_spec h.log (sound.indexed _) (ledger_agree sound n req.term) above le rel.len
    inside common with ⟨merged, -⟩ | ⟨j, kept, -, beyond, short, shared, differs, log, -, merged⟩
  · rw [merged]
    exact ⟨_, rfl⟩
  · obtain ⟨rlog, appended, -⟩ := append_fresh log (sound.indexed _) beyond.le rel.len
    rw [merged]
    simp only [appended]
    have current : a.term n = req.term := h.term.symm.trans term
    have led : a.leader (a.term n) ≠ none := by rw [current, rel.leader]; simp
    have past : p.raft.commitIndex ≤ j := by
      -- a committed entry cannot be in conflict with the ledger
      refine Nat.le_of_not_lt fun before => differs ?_
      rw [← current, ← (committed_common sound h led before).1]
      exact List.take_prefix _ _
    obtain ⟨s, stored, -⟩ := performAll_fresh h.durable.log (sound.indexed req.term)
      (h.stored_le.trans past) short shared (req.prevLogIndex + req.entries.length - j)
      (by have := rel.len; omega)
    rw [Nat.add_sub_cancel' beyond.le] at stored
    exact ⟨s, stored⟩

theorem checkEntries_stored (term : p.raft.term = req.term) {prev : Nat}
    (above : p.raft.rlog.snapIndex ≤ prev)
    (le : prev ≤ req.prevLogIndex + req.entries.length)
    (known : prev = req.prevLogIndex ∨ (a.log n).take prev = (a.ledger req.term).take prev)
    {entries : List Entry}
    (rest : entries =
      ((a.ledger req.term).take (req.prevLogIndex + req.entries.length)).drop prev) :
    ∃ s, p.storage.performAll (p.raft.checkEntries req prev entries).1 = some s := by
  simp only [Raft.checkEntries, holds_lastIndex h.log]
  split
  · exact ⟨_, rfl⟩
  next inside =>
    have inside := Nat.le_of_not_lt inside
    simp only [holds_term_some h.log above inside, Option.getD_some]
    split
    · exact ⟨_, rfl⟩
    next agrees =>
      exact storeEntries_stored sound h rel term above le inside
        (checked_common sound rel le inside known agrees) rest

theorem appendEntriesLocked_stored (term : p.raft.term = req.term) :
    ∃ s, p.storage.performAll (p.raft.appendEntriesLocked req).1 = some s := by
  simp only [Raft.appendEntriesLocked]
  split
  · have current : a.term n = req.term := h.term.symm.trans term
    have led : a.leader (a.term n) ≠ none := by rw [current, rel.leader]; simp
    split
    · exact ⟨_, rfl⟩
    · refine checkEntries_stored sound h rel term (Nat.le_refl _) (by omega) (Or.inr ?_) ?_
      · exact current ▸ (committed_common sound h led (h.snap_le.trans h.stored_le)).1
      · rw [rel.entries, List.drop_drop, ← rel.entries]
        congr 1
        omega
  next start =>
    exact checkEntries_stored sound h rel term (Nat.le_of_not_lt start) (by omega) (Or.inl rfl)
      rel.entries

theorem handleAppendEntries_stored [DecidableEq ID] :
    ∃ s, p.storage.performAll (p.raft.handleAppendEntries req).1 = some s := by
  simp only [Raft.handleAppendEntries]
  split
  · exact ⟨_, rfl⟩
  next current =>
    refine performAll_both (followLocked_stored p.raft p.storage req.term req.leaderId) ?_
    intro s stored
    obtain ⟨a', moves, node, term, -⟩ :=
      (followLocked_sim sound h (Nat.le_of_not_lt current) req.leaderId).done s stored
    exact appendEntriesLocked_stored (moves.sound sound) node
      (appendRel_grows (moves.grows sound) rel) term

end Append

variable [DecidableEq ID] {T : Transport} {act : Action ID} {out : Outcome ID σ}

/-- The storage accepts what an action makes durable. -/
theorem effect_stored (sound : Sound cfg a) (h : Node M a n p)
    (received : ∀ m, act.input n = some m → MsgRel M a m) (effect : Effect cfg n M T p act out) :
    ∃ s, p.storage.performAll out.ops = some s := by
  have last := holds_lastIndex h.log
  cases effect with
  | checkQuorum running leads =>
      refine performAll_plain (fun e saved => ?_) _
      simp only [Process.lock, Raft.checkQuorumLocked] at saved
      split at saved
      · cases saved
      · exact becomeFollowerLocked_entries _ _ _ e saved
  | campaign starting =>
      refine performAll_plain (fun e saved => ?_) _
      simp only [Process.solicit, Process.lock, Raft.beginCampaign] at saved
      split at saved
      · cases saved
      · split at saved
        · exact persistLocked_hardState _ e saved
        · cases saved
  | wonPreVote round won trial =>
      refine performAll_plain (fun e saved => ?_) _
      simp only [Process.solicit, Process.lock, Raft.afterPreVote] at saved
      split at saved
      · cases saved
      · exact persistLocked_hardState _ e saved
  | wonElection round won real later =>
      simp only [Process.tryLock, Raft.afterElection]
      split
      · simp only [Raft.becomeLeaderLocked]
        split
        · exact ⟨_, rfl⟩
        · refine performAll_continue h.durable.log [_] fun k e there => ?_
          cases k with
          | zero =>
              cases there
              rw [← last]
              rfl
          | succ k => cases there
      · exact ⟨_, rfl⟩
  | requestVote => exact performAll_plain (handleRequestVote_entries _ _ _) _
  | voteReply => exact performAll_plain (handleVoteReply_entries _ _ _ _) _
  | appendEntries => exact handleAppendEntries_stored sound h (received _ rfl)
  | appendReply => exact performAll_plain (onReply_entries _ _ _ _ _ _) _
  | installSnapshot => exact performAll_plain (handleInstallSnapshot_entries _ _) _
  | installReply => exact performAll_plain (onReply_entries _ _ _ _ _ _) _
  | appendProposals nonempty there batch =>
      simp only [Process.tryLock, Raft.appendProposals]
      split
      · exact ⟨_, rfl⟩
      · split
        · exact ⟨_, rfl⟩
        · refine performAll_continue h.durable.log _ fun k e there => ?_
          obtain ⟨q, -, rfl⟩ := p.raft.proposalEntries_at there
          rw [← last]
  | @saveFailed index term data durable stage =>
      cases durable with
      | false => exact ⟨_, rfl⟩
      | true => exact ⟨_, rfl⟩
  | saveSnapshot stage => exact ⟨_, rfl⟩
  | electionTimeout | abandonCampaign | timeoutNow | replicatePanic | replicate | readSnapshot
  | send | propose | readIndex | refuseRead | startRead | checkRead | abandonRead | startTransfer
  | targetReady | sendTimeoutNow | endTransfer | stop | takeSnapshot | takePanic | takeEntries
  | restorePanic | restore | finishRestore | skip | applyPanic | apply | finishPanic | finishBatch
  | snapshotFailed | snapshot | snapshotOvertaken | snapshotTerm | compact => exact ⟨_, rfl⟩

section Runs

variable {g : Group ID σ}

omit [DecidableEq ID] in
theorem performAll_pre {s s' : MemStorage ID} {ops ops' : List (StorageOp ID)} (pre : ops <+: ops')
    (performed : s.performAll ops' = some s') : ∃ s₁, s.performAll ops = some s₁ := by
  obtain ⟨rest, rfl⟩ := pre
  rw [performAll_append] at performed
  obtain ⟨s₁, first, -⟩ := Option.bind_eq_some_iff.mp performed
  exact ⟨s₁, first⟩

/-- An action that is enabled and does not panic can be taken. -/
theorem enabled_performs (honours : T.HonoursContext) (reachable : Group.Reachable cfg M T g)
    (enabled : Enabled cfg M T g n act out) {p' : Process ID σ} {sent : List (Msg ID)}
    (next : out.next = some (p', sent)) :
    ∃ s, Group.Performs cfg M T n act g
      { procs := Function.update g.procs n { p' with storage := s }, net := g.net ++ sent } := by
  obtain ⟨a, rel⟩ := reachable_rel honours reachable
  obtain ⟨s, stored⟩ := effect_stored rel.sound (rel.nodes n)
    (fun m input => rel.msgs m (enabled.received m input)) (exec_effect enabled.exec)
  exact ⟨s, out, p', sent, s, enabled, stored, next, rfl⟩

/-- What a replica begins it completes, unless the state machine fails: its log is never asked for
what it does not hold, and its storage never left with a gap. And wherever a crash cuts short what
it was making durable, `New` can build a log from what is there. -/
theorem action_completes (cfg : Config ID) (M : StateMachine σ) (T : Transport)
    (honours : T.HonoursContext) (g : Group ID σ) (reachable : Group.Reachable cfg M T g) :
    (∀ n act out, Enabled cfg M T g n act out →
      (g.procs n).MachineFails M act ∨ ∃ g', Group.Performs cfg M T n act g g') ∧
    ∀ n ops, Interrupted cfg M T g n ops → ∃ s r,
      (g.procs n).storage.performAll ops = some s ∧ Raft.new s = some r := by
  obtain ⟨a, rel⟩ := reachable_rel honours reachable
  refine ⟨fun n act out enabled => ?_, fun n ops interrupted => ?_⟩
  · cases next : out.next with
    | none =>
        exact Or.inl (effect_panics rel.sound (rel.nodes n)
          (fun m input => rel.msgs m (enabled.received m input)) (exec_effect enabled.exec) next)
    | some result =>
        obtain ⟨s, performs⟩ := enabled_performs honours reachable enabled next
        exact Or.inr ⟨_, performs⟩
  · obtain ⟨s, stored⟩ : ∃ s, (g.procs n).storage.performAll ops = some s := by
      cases interrupted with
      | idle member => exact ⟨_, rfl⟩
      | during enabled begun =>
          obtain ⟨s, stored⟩ := effect_stored rel.sound (rel.nodes n)
            (fun m input => rel.msgs m (enabled.received m input)) (exec_effect enabled.exec)
          exact performAll_pre begun stored
    obtain ⟨r, created⟩ := interrupted_new honours rel interrupted stored
    exact ⟨s, r, stored, created⟩

/-- The request with which the leader of term 1 sends its no-op. -/
def noopRequest : AppendEntriesRequest Nat :=
  { term := 1, leaderId := 0, prevLogIndex := 0, prevLogTerm := 0
    entries := [{ index := 1, term := 1, type := .noop, data := [] }], leaderCommit := 0 }

/-- A follower that is handed the no-op stores it. -/
theorem action_completes_noop :
    ∃ (g : Group Nat Unit) (out : Outcome Nat Unit),
      Group.Reachable trio idleMachine ⟨false⟩ g ∧
      Enabled trio idleMachine ⟨false⟩ g 1 (.replication (.appendEntries 2 noopRequest)) out ∧
      out.ops.length = 1 ∧ ∃ g', Group.Performs trio idleMachine ⟨false⟩ 1
        (.replication (.appendEntries 2 noopRequest)) g g' := by
  obtain ⟨g, hg, out, exec, sent, wrote⟩ : ∃ g, Group.play trio idleMachine ⟨false⟩
      (Group.initial idleMachine) (electedRun ++ [(0, .replication (.replicate 1)),
        (0, .replication (.send (.append 1 noopRequest) 2))]) = some g ∧
      ∃ out, (g.procs 1).exec trio 1 idleMachine ⟨false⟩
        (.replication (.appendEntries 2 noopRequest)) = some out ∧
      .appendEntries 1 2 noopRequest ∈ g.net ∧ out.ops.length = 1 :=
    ⟨_, rfl, _, rfl, by decide, rfl⟩
  have reachable : Group.Reachable trio idleMachine ⟨false⟩ g := Group.play_steps hg
  have enabled : Enabled trio idleMachine ⟨false⟩ g 1
      (.replication (.appendEntries 2 noopRequest)) out := by
    refine ⟨by decide, exec, fun m input => ?_, trivial⟩
    cases input
    exact sent
  have completes := (action_completes trio idleMachine ⟨false⟩ rfl g reachable).1 1 _ out enabled
  exact ⟨g, out, reachable, enabled, wrote, completes.resolve_left fun fails => fails⟩

end Runs

end EdgeKV
