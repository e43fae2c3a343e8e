import EdgeKV.Raft.Electing
import EdgeKV.Raft.Backtracking

/-!
A leader can bring the log of a follower up to date, whatever that log looks like. It goes back
from the end of its own log until the follower accepts a request or needs a snapshot; from there on
every request is accepted.
-/
namespace EdgeKV

variable {ID σ : Type} [DecidableEq ID]

section Exchanges

variable {cfg : Config ID} {M : StateMachine σ} {T : Transport} {up : ID → Prop}
  {g g' : Group ID σ} {l m : ID}

/-- An action that leaves the locked state alone. -/
theorem Group.Acted.unlocked {p : Process ID σ} {sent : List (Msg ID)} (h : g.Acted l p sent g')
    (same : p.raft = g.raft l) : g'.raft = g.raft := by
  funext q
  by_cases own : q = l
  · rw [own, h.raft, same]
  · exact h.others q own

omit [DecidableEq ID] in
theorem Group.Acted.applier {p : Process ID σ} {sent : List (Msg ID)} (h : g.Acted l p sent g') :
    (g'.procs l).applier = p.applier := by
  obtain ⟨s, own⟩ := h.own
  rw [own]

variable (honours : T.HonoursContext) (member : l ∈ cfg.peers) (alive : up l)
include honours member alive

/-- A leader prepares a call. -/
theorem can_prepare (other : m ∈ cfg.others l) {call : Call ID}
    (built : (g.raft l).replicateOnce cfg l m = some (some call)) :
    Group.Can cfg M T up g fun g' => g'.raft = g.raft ∧
      (g'.procs l).applier = (g.procs l).applier ∧ call ∈ (g'.procs l).calls := by
  refine (can_act honours alive member (.replication (.replicate m))
    (Process.quiet { g.procs l with calls := call :: (g.procs l).calls }) ?_ rfl rfl rfl).mono
    fun g' acted => ?_
  · have built : (g.procs l).raft.replicateOnce cfg l m = some (some call) := built
    simp only [Process.exec, Process.execReplication, other, not_true_eq_false, if_false, built]
  · obtain ⟨s, own⟩ := acted.own
    exact ⟨acted.unlocked rfl, acted.applier, by rw [own]; exact List.mem_cons_self ..⟩

/-- The snapshot of the storage is read for a call that needs one. -/
theorem can_read {t : Nat} (waits : .needSnapshot m t ∈ (g.procs l).calls)
    (stored : 0 < (g.procs l).storage.snapIndex) :
    Group.Can cfg M T up g fun g' => g'.raft = g.raft ∧
      (g'.procs l).applier = (g.procs l).applier ∧ ∃ req : InstallSnapshotRequest ID,
        req.term = t ∧ req.leaderId = l ∧ req.lastIncludedIndex = (g.procs l).storage.snapIndex ∧
        .install m req ∈ (g'.procs l).calls := by
  obtain ⟨req, term, sender, index, call⟩ : ∃ req : InstallSnapshotRequest ID, req.term = t ∧
      req.leaderId = l ∧ req.lastIncludedIndex = (g.procs l).storage.snapIndex ∧
      Raft.snapshotCall l m t (g.procs l).storage = some (.install m req) := by
    cases saved : (g.procs l).storage.snapMeta with
    | none =>
        rw [MemStorage.snapIndex, saved] at stored
        exact absurd stored (Nat.lt_irrefl 0)
    | some snapMeta =>
        rw [Raft.snapshotCall, MemStorage.snapIndex, saved]
        exact ⟨_, rfl, rfl, rfl, rfl⟩
  refine (can_act honours alive member (.replication (.readSnapshot m t))
    (Process.quiet { g.procs l with
      calls := .install m req :: (g.procs l).calls.erase (.needSnapshot m t) }) ?_ rfl rfl
      rfl).mono fun g' acted => ?_
  · simp only [Process.exec, Process.execReplication, waits, not_true_eq_false, if_false, call]
    rfl
  · obtain ⟨s, own⟩ := acted.own
    refine ⟨acted.unlocked rfl, acted.applier, req, term, sender, index, ?_⟩
    rw [own]
    exact List.mem_cons_self ..

/-- A call of the leader's own term leaves the node. -/
theorem can_send {call : Call ID} (there : call ∈ (g.procs l).calls)
    (leads : (g.raft l).leading call.term) :
    Group.Can cfg M T up g fun g' => g'.raft = g.raft ∧
      (g'.procs l).applier = (g.procs l).applier ∧
      ∃ now, ∀ msg ∈ call.messages now, msg ∈ g'.net := by
  refine (can_act honours alive member (.replication (.send call ((g.procs l).clock + 1)))
    { next := some
        ({ g.procs l with
            calls := (g.procs l).calls.erase call, clock := (g.procs l).clock + 1 },
          call.messages ((g.procs l).clock + 1)) } ?_ rfl rfl rfl).mono fun g' acted => ?_
  · have leads : (g.procs l).raft.leading call.term := leads
    simp only [Process.exec, Process.execReplication, there, leads, not_true_eq_false,
      Nat.not_le_of_lt (Nat.lt_succ_self _), or_self, or_true, if_false, if_true]
  · refine ⟨acted.unlocked rfl, acted.applier, (g.procs l).clock + 1, fun msg sent => ?_⟩
    rw [acted.net]
    exact List.mem_append_right _ sent

/-- A request is built, sent, handled and answered, and the answer arrives. -/
theorem can_append (other : m ∈ cfg.others l) (alive' : up m) {req : AppendEntriesRequest ID}
    {r : Raft ID} {resp : AppendEntriesResponse} (leads : (g.raft l).leading req.term)
    (own : req.leaderId = l)
    (built : (g.raft l).replicateOnce cfg l m = some (some (.append m req)))
    (handled : ((g.raft m).handleAppendEntries req).2 = some (r, resp)) :
    Group.Can cfg M T up g fun g' => g'.raft m = r ∧
      (∃ now, g'.raft l = ((g.raft l).handleAppendReply cfg l m now req resp).1) ∧
      (g'.procs l).applier = (g.procs l).applier ∧ ∀ q, q ≠ l → q ≠ m → g'.raft q = g.raft q := by
  obtain ⟨there, apart⟩ := List.mem_filter.mp other
  have apart : m ≠ l := by simpa using apart
  refine (can_prepare honours member alive other built).andThen ?_
  rintro g₁ ⟨same₁, work₁, call⟩
  refine (can_send honours member alive call (by rw [same₁]; exact leads)).andThen ?_
  rintro g₂ ⟨same₂, work₂, now, sent⟩
  have before : g₂.raft = g.raft := same₂.trans same₁
  refine (can_receive honours alive' there (.replication (.appendEntries now req))
    { ops := ((g₂.raft m).handleAppendEntries req).1
      next := some ({ g₂.procs m with raft := r }, [.appendReply m l now req resp]) } ?_ rfl rfl
      (sent _ (List.mem_singleton_self _)) rfl).andThen fun g₃ acted₃ => ?_
  · have handled : ((g₂.procs m).raft.handleAppendEntries req).2 = some (r, resp) := by
      rw [← handled, ← before]
    simp only [Process.exec, Process.execReplication, handled, Option.map_some, own]
  refine (can_receive honours alive member (.replication (.appendReply m now req resp))
    ((g₃.procs l).lock ((g₃.raft l).handleAppendReply cfg l m now req resp) []) rfl rfl rfl ?_
    rfl).mono fun g₄ acted₄ => ?_
  · rw [acted₃.net]
    exact List.mem_append_right _ (List.mem_singleton_self _)
  · refine ⟨?_, ⟨now, ?_⟩, ?_, fun q first second => ?_⟩
    · rw [acted₄.others m apart, acted₃.raft]
    · rw [acted₄.raft, ← before, ← acted₃.others l apart.symm]
    · rw [acted₄.applier, ← work₁, ← work₂, ← acted₃.rest l apart.symm]
    · rw [acted₄.others q first, acted₃.others q second, before]

/-- A snapshot is read, sent and answered, and the answer arrives. -/
theorem can_install (other : m ∈ cfg.others l) (alive' : up m) {t : Nat}
    (leads : (g.raft l).leading t) (pos : 0 < (g.raft l).rlog.snapIndex)
    (built : (g.raft l).replicateOnce cfg l m = some (some (.needSnapshot m t))) :
    Group.Can cfg M T up g fun g' => ∃ req : InstallSnapshotRequest ID, req.term = t ∧
      (g.raft l).rlog.snapIndex ≤ req.lastIncludedIndex ∧
      g'.raft m = ((g.raft m).handleInstallSnapshot req).1 ∧
      (∃ now, g'.raft l = ((g.raft l).handleInstallReply cfg l m now req
        ((g.raft m).handleInstallSnapshot req).2.2).1) ∧
      (g'.procs l).applier = (g.procs l).applier ∧ ∀ q, q ≠ l → q ≠ m → g'.raft q = g.raft q := by
  obtain ⟨there, apart⟩ := List.mem_filter.mp other
  have apart : m ≠ l := by simpa using apart
  refine (can_prepare honours member alive other built).andThen ?_
  rintro g₁ ⟨same₁, work₁, waits⟩
  refine .assuming fun reachable => ?_
  obtain ⟨a, rel⟩ := reachable_rel honours reachable
  -- the log was compacted only after its snapshot had been stored
  have low : (g.raft l).rlog.snapIndex ≤ (g₁.procs l).storage.snapIndex := by
    rw [← same₁]
    exact (rel.nodes l).snap_le
  refine (can_read honours member alive waits (pos.trans_le low)).andThen ?_
  rintro g₂ ⟨same₂, work₂, req, term, own, index, call⟩
  refine (can_send honours member alive call ?_).andThen ?_
  · rw [same₂, same₁, Call.term, term]
    exact leads
  rintro g₃ ⟨same₃, work₃, now, sent⟩
  have before : g₃.raft = g.raft := same₃.trans (same₂.trans same₁)
  refine (can_receive honours alive' there (.replication (.installSnapshot now req))
    ((g₃.procs m).lock (((g₃.raft m).handleInstallSnapshot req).1,
      ((g₃.raft m).handleInstallSnapshot req).2.1)
      [.installReply m l now req ((g₃.raft m).handleInstallSnapshot req).2.2]) ?_ rfl rfl
      (sent _ (List.mem_singleton_self _)) rfl).andThen fun g₄ acted₄ => ?_
  · simp only [Process.exec, Process.execReplication, own]
  rw [before] at acted₄
  refine (can_receive honours alive member (.replication (.installReply m now req
      ((g.raft m).handleInstallSnapshot req).2.2))
    ((g₄.procs l).lock ((g₄.raft l).handleInstallReply cfg l m now req
      ((g.raft m).handleInstallSnapshot req).2.2) []) rfl rfl rfl ?_ rfl).mono fun g₅ acted₅ => ?_
  · rw [acted₄.net]
    exact List.mem_append_right _ (List.mem_singleton_self _)
  · refine ⟨req, term, index ▸ low, ?_, ⟨now, ?_⟩, ?_, fun q first second => ?_⟩
    · rw [acted₅.others m apart, acted₄.raft]
    · rw [acted₅.raft, acted₄.others l apart.symm, before]
    · rw [acted₅.applier, ← work₁, ← work₂, ← work₃, ← acted₄.rest l apart.symm]
    · rw [acted₅.others q first, acted₄.others q second, before]

end Exchanges

/-- What a leader knows of a peer that answers all its requests: nothing yet, or up to where the
peer has its log; then it goes on from there. -/
def Raft.Tracks (r : Raft ID) (m : ID) : Prop :=
  (r.matchIndex m = 0 ∧ 1 ≤ r.nextIndex m) ∨ r.nextIndex m = r.matchIndex m + 1

/-- Everything that a majority is known to store has been committed, if it is of this term. -/
def Raft.Counted (cfg : Config ID) (self : ID) (r : Raft ID) : Prop :=
  r.commitCandidate cfg self ≤ r.commitIndex ∨
    (r.rlog.term (r.commitCandidate cfg self)).getD 0 ≠ r.term

section Counting

variable {cfg : Config ID} {self peer : ID} {r r' : Raft ID} {sentAt : Nat}

theorem counted_congr (h : r.Counted cfg self) (term : r'.term = r.term) (rlog : r'.rlog = r.rlog)
    (matched : r'.matchIndex = r.matchIndex) (commit : r'.commitIndex = r.commitIndex) :
    r'.Counted cfg self := by
  have same : r'.commitCandidate cfg self = r.commitCandidate cfg self := by
    simp only [Raft.commitCandidate, rlog, matched]
  rw [Raft.Counted, same, rlog, term, commit]
  exact h

theorem counted_advance (r : Raft ID) : (r.advanceCommitLocked cfg self).Counted cfg self := by
  have same : (r.advanceCommitLocked cfg self).commitCandidate cfg self =
      r.commitCandidate cfg self := by
    rw [Raft.advanceCommitLocked_eq]
    rfl
  rw [Raft.Counted, same, Raft.advanceCommitLocked_eq]
  simp only
  split
  · exact Or.inl (Nat.le_refl _)
  next unable =>
    rcases Nat.lt_or_ge r.commitIndex (r.commitCandidate cfg self) with above | below
    · exact Or.inr fun own => unable ⟨above, own⟩
    · exact Or.inl below

theorem counted_appendReply (h : r.Counted cfg self) {req : AppendEntriesRequest ID}
    {resp : AppendEntriesResponse} (eq : r' =
      (r.recordAckLocked peer sentAt).appendReplyLocked cfg self peer req resp) :
    r'.Counted cfg self := by
  obtain ⟨acked, same⟩ := recordAckLocked_eq r peer sentAt
  rw [eq, same]
  simp only [Raft.appendReplyLocked]
  split
  · split
    · exact counted_advance _
    · exact counted_congr h rfl rfl rfl rfl
  · exact counted_congr h rfl rfl rfl rfl

theorem counted_installReply (h : r.Counted cfg self) {req : InstallSnapshotRequest ID}
    (eq : r' = (r.recordAckLocked peer sentAt).installReplyLocked cfg self peer req) :
    r'.Counted cfg self := by
  obtain ⟨acked, same⟩ := recordAckLocked_eq r peer sentAt
  rw [eq, same]
  simp only [Raft.installReplyLocked]
  split
  · exact counted_congr (counted_advance _) rfl rfl rfl rfl
  · exact counted_congr h rfl rfl rfl rfl

end Counting

section Quorum

variable {cfg : Config ID} {M : StateMachine σ} {a : Abs ID} {l : ID} {p : Process ID σ}

omit [DecidableEq ID] in
/-- What a peer is known to store is in the leader's log. -/
theorem node_matched (sound : Sound cfg a) (h : Node M a l p) (leads : p.raft.state = .leader)
    (m : ID) : p.raft.matchIndex m ≤ p.raft.rlog.lastIndex := by
  rw [holds_lastIndex h.log]
  exact ((h.leads leads).matched m).trans (acked_le_log sound h leads m)

/-- If enough peers have all of the leader's log, its end is what a majority stores. -/
theorem commitCandidate_last (sound : Sound cfg a) (h : Node M a l p)
    (leads : p.raft.state = .leader) (member : l ∈ cfg.peers) {voters : List ID}
    (distinct : voters.Nodup) (asked : voters ⊆ cfg.others l)
    (enough : cfg.quorum ≤ 1 + voters.length)
    (done : ∀ m ∈ voters, p.raft.matchIndex m = p.raft.rlog.lastIndex) :
    p.raft.commitCandidate cfg l = p.raft.rlog.lastIndex := by
  obtain ⟨stored, greatest⟩ := commitCandidate_greatest p.raft member
  refine Nat.le_antisymm ?_ (greatest ?_)
  · -- a majority is not empty
    have some : 0 < (p.raft.values cfg l).countP (p.raft.commitCandidate cfg l ≤ ·) :=
      Nat.lt_of_lt_of_le (Nat.succ_pos _) stored
    obtain ⟨v, there, le⟩ := List.countP_pos_iff.mp some
    refine (of_decide_eq_true le).trans ?_
    rcases List.mem_cons.mp there with rfl | there
    · exact Nat.le_refl _
    · obtain ⟨m, -, rfl⟩ := List.mem_map.mp there
      exact node_matched sound h leads m
  · have all : voters.countP (fun m => decide (p.raft.rlog.lastIndex ≤ p.raft.matchIndex m)) =
        voters.length :=
      List.countP_eq_length.mpr fun m there => decide_eq_true (done m there).ge
    have some := (distinct.subperm asked).countP_le
      (fun m => decide (p.raft.rlog.lastIndex ≤ p.raft.matchIndex m))
    rw [Set.mem_ofPred_eq, Raft.values, List.countP_cons, List.countP_map, if_pos (by simp)]
    refine enough.trans ?_
    rw [all] at some
    rw [Nat.add_comm]
    exact Nat.add_le_add_right some 1

end Quorum

section Answers

variable {cfg : Config ID} {self peer : ID} {r r' : Raft ID} {sentAt : Nat}

theorem followLocked_reaches {t : Nat} (behind : r.term ≤ t) (leader : ID) :
    (r.followLocked t leader).1.term = t := by
  simp only [Raft.followLocked]
  split
  · rw [Raft.becomeFollowerLocked_eq]
    exact Nat.max_eq_right behind
  next current => exact Nat.le_antisymm behind (Nat.le_of_not_lt fun lt => current (Or.inl lt))

omit [DecidableEq ID] in
/-- An answer carries the term of the node that gives it. -/
theorem appendEntriesLocked_answers {req : AppendEntriesRequest ID} {resp : AppendEntriesResponse}
    (h : (r.appendEntriesLocked req).2 = some (r', resp)) : resp.term = r.term := by
  have stored {entries : List Entry} (h : (r.storeEntries req entries).2 = some (r', resp)) :
      resp.term = r.term := by
    simp only [Raft.storeEntries] at h
    split at h
    · cases h
    · split at h
      · cases h
      · cases h
        rfl
  have checked {prev : Nat} {entries : List Entry}
      (h : (r.checkEntries req prev entries).2 = some (r', resp)) : resp.term = r.term := by
    simp only [Raft.checkEntries] at h
    split at h
    · cases h
      rfl
    · split at h
      · cases h
        rfl
      · exact stored h
  simp only [Raft.appendEntriesLocked] at h
  split at h
  · split at h
    · cases h
      rfl
    · exact checked h
  · exact checked h

theorem handleAppendEntries_term {req : AppendEntriesRequest ID} {resp : AppendEntriesResponse}
    (h : (r.handleAppendEntries req).2 = some (r', resp)) (behind : r.term ≤ req.term) :
    r'.term = req.term ∧ resp.term = req.term := by
  simp only [Raft.handleAppendEntries, Nat.not_lt_of_le behind, if_false] at h
  have reached := followLocked_reaches behind req.leaderId
  exact ⟨(appendEntriesLocked_role _ h).2.trans reached,
    (appendEntriesLocked_answers h).trans reached⟩

theorem handleInstallSnapshot_term (req : InstallSnapshotRequest ID) (behind : r.term ≤ req.term) :
    (r.handleInstallSnapshot req).1.term = req.term ∧
      (r.handleInstallSnapshot req).2.2.term = req.term := by
  simp only [Raft.handleInstallSnapshot, Nat.not_lt_of_le behind, if_false]
  have reached := followLocked_reaches behind req.leaderId
  exact ⟨(installSnapshotLocked_role _ _).2.trans reached, reached⟩

/-- What a leader with an answer of its own term to a snapshot knows. -/
theorem installReplyLocked_match {req : InstallSnapshotRequest ID}
    (h : r' = (r.recordAckLocked peer sentAt).installReplyLocked cfg self peer req) :
    r'.matchIndex peer = max (r.matchIndex peer) req.lastIncludedIndex := by
  obtain ⟨acked, eq⟩ := recordAckLocked_eq r peer sentAt
  simp only [eq, Raft.installReplyLocked, Raft.advanceCommitLocked_eq] at h
  split at h
  next further =>
    rw [h, Nat.max_eq_right further.le]
    exact Function.update_self ..
  next known =>
    rw [h, Nat.max_eq_left (Nat.le_of_not_lt known)]

theorem handleInstallReply_current {req : InstallSnapshotRequest ID}
    {resp : InstallSnapshotResponse} (leads : r.state = .leader) (term : r.term = req.term)
    (current : resp.term ≤ r.term) : (r.handleInstallReply cfg self peer sentAt req resp).1 =
      (r.recordAckLocked peer sentAt).installReplyLocked cfg self peer req := by
  simp only [Raft.handleInstallReply, Raft.onReply]
  rw [if_neg (Nat.not_lt_of_le current), if_neg]
  rintro (other | other)
  · exact other leads
  · exact other term

omit [DecidableEq ID] in
/-- The call that a leader makes, and how far its entries go. -/
theorem replicateOnce_shape (leads : r.leading r.term)
    (inside : r.nextIndex peer ≤ r.rlog.lastIndex + 1) :
    (r.nextIndex peer ≤ r.rlog.snapIndex ∧
      r.replicateOnce cfg self peer = some (some (.needSnapshot peer r.term))) ∨
    (r.rlog.snapIndex < r.nextIndex peer ∧ ∃ req,
      r.replicateOnce cfg self peer = some (some (.append peer req)) ∧ req.term = r.term ∧
      req.leaderId = self ∧ req.prevLogIndex + 1 = r.nextIndex peer ∧
      req.prevLogIndex + req.entries.length =
        min r.rlog.lastIndex (req.prevLogIndex + cfg.maxAppendEntries)) := by
  simp only [Raft.replicateOnce, leads, not_true_eq_false, if_false]
  split
  next low => exact Or.inl ⟨low, rfl⟩
  next high =>
    have above := Nat.lt_of_not_le high
    obtain ⟨entries, cut⟩ := slice_inside above
      (Nat.min_le_left r.rlog.lastIndex (r.nextIndex peer - 1 + cfg.maxAppendEntries))
    have last : r.rlog.lastIndex = r.rlog.snapIndex + r.rlog.entries.length := rfl
    have size : r.nextIndex peer - 1 + entries.length =
        min r.rlog.lastIndex (r.nextIndex peer - 1 + cfg.maxAppendEntries) := by
      have cut' := cut
      simp only [RaftLog.slice] at cut'
      split at cut'
      · cases cut'
        rw [List.length_nil]
        omega
      · split at cut'
        · cases cut'
        · cases cut'
          rw [List.length_take, List.length_drop]
          omega
    rw [cut]
    exact Or.inr ⟨above, _, rfl, rfl, rfl, Nat.sub_add_cancel (Nat.zero_lt_of_lt above), size⟩

end Answers

/-- What the answers to its requests leave as it was in a leader: all but what it knows of its
peers, and what it has committed for that. -/
structure Process.Held (p p' : Process ID σ) : Prop where
  raft : ∃ nextIndex matchIndex ackedSendTime commitIndex,
    p'.raft = { p.raft with nextIndex, matchIndex, ackedSendTime, commitIndex }
  applier : p'.applier = p.applier

/-- What the answers of one peer leave as it was. -/
structure Process.Heard (peer : ID) (p p' : Process ID σ) : Prop extends Process.Held p p' where
  rest : ∀ q, q ≠ peer →
    p'.raft.nextIndex q = p.raft.nextIndex q ∧ p'.raft.matchIndex q = p.raft.matchIndex q

/-- How far a peer is from having the leader's log, as the leader sees it. -/
def Raft.lag (r : Raft ID) (peer : ID) : Nat :=
  if r.matchIndex peer = 0 then r.rlog.lastIndex + 1 + r.nextIndex peer
  else r.rlog.lastIndex - r.matchIndex peer

/-- Node `l` leads term `t` and keeps track of the voters, none of which is in a later term. -/
structure Steered (l : ID) (t : Nat) (voters : List ID) (g : Group ID σ) : Prop where
  leads : (g.raft l).leading t
  behind : ∀ m ∈ voters, (g.raft m).term ≤ t
  tracks : ∀ m ∈ voters, (g.raft l).Tracks m

section Held

omit [DecidableEq ID]

variable {p p' p'' : Process ID σ} {peer : ID}

theorem Process.Held.refl (p : Process ID σ) : p.Held p := ⟨⟨_, _, _, _, rfl⟩, rfl⟩

theorem Process.Held.trans (h : p.Held p') (h' : p'.Held p'') : p.Held p'' := by
  obtain ⟨next, matched, acked, commit, eq⟩ := h.raft
  obtain ⟨next', matched', acked', commit', eq'⟩ := h'.raft
  rw [eq] at eq'
  exact ⟨⟨_, _, _, _, eq'⟩, h'.applier.trans h.applier⟩

theorem Process.Held.rlog (h : p.Held p') : p'.raft.rlog = p.raft.rlog := by
  obtain ⟨next, matched, acked, commit, eq⟩ := h.raft
  rw [eq]

theorem Process.Held.leading (h : p.Held p') {t : Nat} (leads : p.raft.leading t) :
    p'.raft.leading t := by
  obtain ⟨next, matched, acked, commit, eq⟩ := h.raft
  rw [eq]
  exact leads

theorem Process.Heard.refl (peer : ID) (p : Process ID σ) : p.Heard peer p :=
  ⟨.refl p, fun _ _ => ⟨rfl, rfl⟩⟩

theorem Process.Heard.trans (h : p.Heard peer p') (h' : p'.Heard peer p'') : p.Heard peer p'' where
  toHeld := h.toHeld.trans h'.toHeld
  rest q other := ⟨(h'.rest q other).1.trans (h.rest q other).1,
    (h'.rest q other).2.trans (h.rest q other).2⟩

end Held

section Heard

variable {cfg : Config ID} {self peer : ID} {p p' : Process ID σ} {sentAt : Nat}

theorem appendReply_heard {req : AppendEntriesRequest ID} {resp : AppendEntriesResponse}
    (h : p'.raft = (p.raft.recordAckLocked peer sentAt).appendReplyLocked cfg self peer req resp)
    (applier : p'.applier = p.applier) : p.Heard peer p' := by
  refine ⟨⟨?_, applier⟩, fun q => appendReplyLocked_others h⟩
  obtain ⟨acked, eq⟩ := recordAckLocked_eq p.raft peer sentAt
  rw [h, eq]
  simp only [Raft.appendReplyLocked, Raft.advanceCommitLocked_eq]
  split
  · split
    · exact ⟨_, _, _, _, rfl⟩
    · exact ⟨_, _, _, _, rfl⟩
  · exact ⟨_, _, _, _, rfl⟩

theorem installReply_heard {req : InstallSnapshotRequest ID}
    (h : p'.raft = (p.raft.recordAckLocked peer sentAt).installReplyLocked cfg self peer req)
    (applier : p'.applier = p.applier) : p.Heard peer p' := by
  refine ⟨⟨?_, applier⟩, fun q => installReplyLocked_others h⟩
  obtain ⟨acked, eq⟩ := recordAckLocked_eq p.raft peer sentAt
  rw [h, eq]
  simp only [Raft.installReplyLocked, Raft.advanceCommitLocked_eq]
  split
  · exact ⟨_, _, _, _, rfl⟩
  · exact ⟨_, _, _, _, rfl⟩

variable {l m : ID} {t : Nat} {voters : List ID} {g g' : Group ID σ}

/-- The leader is still in place after an answer from one of the voters. -/
theorem steered_heard (h : Steered l t voters g) (apart : ∀ v ∈ voters, v ≠ l)
    (heard : (g.procs l).Heard m (g'.procs l)) (tracks : (g'.raft l).Tracks m)
    (behind : (g'.raft m).term ≤ t) (rest : ∀ q, q ≠ l → q ≠ m → g'.raft q = g.raft q) :
    Steered l t voters g' := by
  refine ⟨heard.leading h.leads, fun q there => ?_, fun q there => ?_⟩
  · by_cases own : q = m
    · rw [own]
      exact behind
    · rw [rest q (apart q there) own]
      exact h.behind q there
  · by_cases own : q = m
    · rw [own]
      exact tracks
    · obtain ⟨next, matched⟩ := heard.rest q own
      rw [Raft.Tracks, next, matched]
      exact h.tracks q there

end Heard

section Rounds

variable {cfg : Config ID} {M : StateMachine σ} {T : Transport} {up : ID → Prop}
  {g : Group ID σ} {l m : ID} {t : Nat} {voters : List ID} (honours : T.HonoursContext)
  (member : l ∈ cfg.peers) (alive : up l) (asked : voters ⊆ cfg.others l)
  (alive' : ∀ v ∈ voters, up v)
include honours member alive asked alive'

/-- A follower that lacks what the leader's log begins with gets a snapshot. -/
theorem can_restore (h : Steered l t voters g) (counted : (g.raft l).Counted cfg l)
    (there : m ∈ voters) (low : (g.raft l).nextIndex m ≤ (g.raft l).rlog.snapIndex)
    (built : (g.raft l).replicateOnce cfg l m = some (some (.needSnapshot m t))) :
    Group.Can cfg M T up g fun g' => Steered l t voters g' ∧ (g'.raft l).Counted cfg l ∧
      (g.procs l).Heard m (g'.procs l) ∧ (g'.raft l).lag m < (g.raft l).lag m := by
  have apart : ∀ v ∈ voters, v ≠ l := fun v hv => by simpa using (List.mem_filter.mp (asked hv)).2
  have begins : (g.raft l).rlog.snapIndex ≤ (g.raft l).rlog.lastIndex := Nat.le_add_right _ _
  have tracks := h.tracks m there
  rw [Raft.Tracks] at tracks
  refine (can_install honours member alive (asked there) (alive' m there) h.leads (by omega)
    built).mono ?_
  rintro g' ⟨req, term, covers, restored, ⟨now, told⟩, work, rest⟩
  obtain ⟨reached, answered⟩ := handleInstallSnapshot_term req (term.symm ▸ h.behind m there)
  have current := h.leads.2.1.trans term.symm
  rw [handleInstallReply_current h.leads.1 current (answered.trans current.symm).le] at told
  have heard : (g.procs l).Heard m (g'.procs l) := installReply_heard told work
  have same : (g'.raft l).rlog = (g.raft l).rlog := heard.rlog
  have matched := installReplyLocked_match told
  refine ⟨steered_heard h apart heard (Or.inr (installReplyLocked_next told)) ?_ rest,
    counted_installReply counted told, heard, ?_⟩
  · rw [restored, reached, term]
  · have known : (g'.raft l).matchIndex m ≠ 0 := by omega
    rw [Raft.lag, if_neg known, Raft.lag, same]
    split <;> omega

/-- One exchange with a follower that lags behind brings it closer. -/
theorem can_advance (batch : 0 < cfg.maxAppendEntries) (h : Steered l t voters g)
    (counted : (g.raft l).Counted cfg l) (there : m ∈ voters)
    (lags : (g.raft l).matchIndex m ≠ (g.raft l).rlog.lastIndex) :
    Group.Can cfg M T up g fun g' => Steered l t voters g' ∧ (g'.raft l).Counted cfg l ∧
      (g.procs l).Heard m (g'.procs l) ∧ (g'.raft l).lag m < (g.raft l).lag m := by
  have apart : ∀ v ∈ voters, v ≠ l := fun v hv => by simpa using (List.mem_filter.mp (asked hv)).2
  refine .assuming fun reachable => ?_
  obtain ⟨a, rel⟩ := reachable_rel honours reachable
  have sound := rel.sound
  have leader : Node M a l (g.procs l) := rel.nodes l
  have follower : Node M a m (g.procs m) := rel.nodes m
  have reigns := leader.leads h.leads.1
  have last : (g.raft l).rlog.lastIndex = (a.log l).length := holds_lastIndex leader.log
  have acked : (g.raft l).matchIndex m ≤ a.acked m (g.raft l).term := reigns.matched m
  have bound : (g.raft l).matchIndex m ≤ (g.raft l).rlog.lastIndex :=
    node_matched sound leader h.leads.1 m
  have inside : (g.raft l).nextIndex m ≤ (g.raft l).rlog.lastIndex + 1 := last ▸ reigns.next m
  have leads : (g.raft l).leading (g.raft l).term := ⟨h.leads.1, rfl, h.leads.2.2⟩
  rcases replicateOnce_shape leads inside with
    ⟨low, built⟩ | ⟨high, req, built, term, own, next, size⟩
  · rw [h.leads.2.1] at built
    exact can_restore honours member alive asked alive' h counted there low built
  · have current := term.trans h.leads.2.1
    have made : AppendRel a req := replicateOnce_call sound leader built
    obtain ⟨⟨r, resp⟩, handled⟩ := handleAppendEntries_done sound follower made
    have behind : (g.raft m).term ≤ req.term := current.symm ▸ h.behind m there
    obtain ⟨reached, answered⟩ := handleAppendEntries_term handled behind
    refine (can_append honours member alive (asked there) (alive' m there) (current.symm ▸ h.leads)
      own built handled).mono ?_
    rintro g' ⟨moved, ⟨now, told⟩, work, rest⟩
    rw [handleAppendReply_current cfg l m now h.leads.1 term.symm (answered.trans term).le] at told
    have heard : (g.procs l).Heard m (g'.procs l) := appendReply_heard told work
    have same : (g'.raft l).rlog = (g.raft l).rlog := heard.rlog
    have counted' := counted_appendReply counted told
    have stays (tracks : (g'.raft l).Tracks m) : Steered l t voters g' :=
      steered_heard h apart heard tracks (moved ▸ (reached.trans current).le) rest
    cases success : resp.success with
    | true =>
        rcases appendReplyLocked_accepted told success with ⟨further, matched, onward⟩ | ⟨known, -⟩
        · have follows : (g'.raft l).nextIndex m = (g'.raft l).matchIndex m + 1 := by
            rw [onward, matched]
          refine ⟨stays (Or.inr follows), counted', heard, ?_⟩
          have some : (g'.raft l).matchIndex m ≠ 0 := by omega
          rw [Raft.lag, if_neg some, Raft.lag, same]
          split <;> omega
        · rcases h.tracks m there with ⟨unknown, positive⟩ | follows <;> omega
    | false =>
        obtain ⟨-, mismatch⟩ := handleAppendEntries_refused handled success answered.le
        -- nothing is known of the follower yet: what it has acknowledged it would accept
        have unknown : (g.raft l).matchIndex m = 0 := by
          by_contra known
          rcases h.tracks m there with ⟨unknown, -⟩ | follows
          · exact known unknown
          · refine acked_accepts sound follower made behind (by omega) ?_ mismatch
            rw [term]
            omega
        obtain ⟨-, -, -, -, positive, back, -⟩ := node_refused sound leader h.leads.1 term.symm
          (mismatch_refusal sound follower made mismatch) success told
        obtain ⟨times, eq⟩ := appendReplyLocked_rejected told success
        have unknown' : (g'.raft l).matchIndex m = 0 := by
          rw [eq]
          exact unknown
        refine ⟨stays (Or.inl ⟨unknown', positive⟩), counted', heard, ?_⟩
        rw [Raft.lag, if_pos unknown', Raft.lag, if_pos unknown, same]
        omega

/-- A follower is brought up to date. -/
theorem can_catchUp (batch : 0 < cfg.maxAppendEntries) (h : Steered l t voters g)
    (counted : (g.raft l).Counted cfg l) (there : m ∈ voters) :
    Group.Can cfg M T up g fun g' => Steered l t voters g' ∧ (g'.raft l).Counted cfg l ∧
      (g.procs l).Heard m (g'.procs l) ∧
      (g'.raft l).matchIndex m = (g'.raft l).rlog.lastIndex := by
  refine canReach_of_rank (fun g' : Group ID σ => Steered l t voters g' ∧
      (g'.raft l).Counted cfg l ∧ (g.procs l).Heard m (g'.procs l))
    (fun g' => (g'.raft l).lag m) ?_ ⟨h, counted, .refl m _⟩
  rintro g₁ ⟨h₁, counted₁, heard₁⟩
  by_cases done : (g₁.raft l).matchIndex m = (g₁.raft l).rlog.lastIndex
  · exact .here (Or.inl ⟨h₁, counted₁, heard₁, done⟩)
  · refine (can_advance honours member alive asked alive' batch h₁ counted₁ there done).mono ?_
    rintro g₂ ⟨h₂, counted₂, heard₂, closer⟩
    exact Or.inr ⟨⟨h₂, counted₂, heard₁.trans heard₂⟩, closer⟩

/-- All voters are brought up to date, one after the other. -/
theorem can_catchUp_all (batch : 0 < cfg.maxAppendEntries) (h : Steered l t voters g)
    (counted : (g.raft l).Counted cfg l) :
    Group.Can cfg M T up g fun g' => (Steered l t voters g' ∧ (g'.raft l).Counted cfg l ∧
      (g.procs l).Held (g'.procs l)) ∧
      ∀ m ∈ voters, (g'.raft l).matchIndex m = (g'.raft l).rlog.lastIndex := by
  refine canReach_all (fun g' : Group ID σ => Steered l t voters g' ∧ (g'.raft l).Counted cfg l ∧
      (g.procs l).Held (g'.procs l))
    (fun m g' => (g'.raft l).matchIndex m = (g'.raft l).rlog.lastIndex) voters ?_
    ⟨h, counted, .refl _⟩
  rintro m there g₁ ⟨h₁, counted₁, held₁⟩
  refine (can_catchUp honours member alive asked alive' batch h₁ counted₁ there).mono ?_
  rintro g₂ ⟨h₂, counted₂, heard, done⟩
  refine ⟨⟨h₂, counted₂, held₁.trans heard.toHeld⟩, done, fun q done' => ?_⟩
  by_cases own : q = m
  · rw [own]
    exact done
  · rw [(heard.rest q own).2, heard.rlog]
    exact done'

/-- A leader commits all of its log once the voters have it, if they and it are a majority and the
log ends with an entry of its term. -/
theorem can_commit (batch : 0 < cfg.maxAppendEntries) (distinct : voters.Nodup)
    (enough : cfg.quorum ≤ 1 + voters.length) (h : Steered l t voters g)
    (counted : (g.raft l).Counted cfg l)
    (own : (g.raft l).rlog.term (g.raft l).rlog.lastIndex = some t) :
    Group.Can cfg M T up g fun g' => (g.procs l).Held (g'.procs l) ∧
      (g'.raft l).commitIndex = (g.raft l).rlog.lastIndex := by
  refine (can_catchUp_all honours member alive asked alive' batch h counted).andThen ?_
  rintro g' ⟨⟨h', counted', held⟩, done⟩
  refine .assuming fun reachable => .here ⟨held, ?_⟩
  obtain ⟨a, rel⟩ := reachable_rel honours reachable
  have leader : Node M a l (g'.procs l) := rel.nodes l
  have candidate :=
    commitCandidate_last rel.sound leader h'.leads.1 member distinct asked enough done
  have below : (g'.raft l).commitIndex ≤ (g'.raft l).rlog.lastIndex := by
    rw [holds_lastIndex leader.log]
    exact leader.commit_le
  rw [Raft.Counted, candidate] at counted'
  rw [← held.rlog] at own ⊢
  rcases counted' with above | foreign
  · exact Nat.le_antisymm below above
  · rw [own, h'.leads.2.1] at foreign
    exact absurd rfl foreign

end Rounds

end EdgeKV
