import EdgeKV.Raft.Simulation.Terms

/-!
The leader: winning an election, appending its own entries and committing. The
index that `advanceCommitLocked` picks is stored by a majority, and an entry of
the current term there is the protocol's condition for a commit.
-/
namespace EdgeKV

open Consensus (termAt CommittedBy Grows majority IsMajority)

variable {ID σ : Type} {M : StateMachine σ} {a a' : Abs ID} {n : ID} {p : Process ID σ}

/-- A log that grew at its end keeps what was committed. -/
theorem committed_append {L : List Entry} {t i : Nat} (e : Entry) (grows : Grows n a a')
    (h : CommittedBy a t (L.take i)) (le : i ≤ L.length) :
    CommittedBy a' t ((L ++ [e]).take i) := by
  rw [List.take_append_of_le_length le]
  exact Consensus.committedBy_grows grows h

/-- An entry of one's own, durable at the end of the log. -/
theorem durable_append {s s' : MemStorage ID} {e : Entry} (h : Durable M a n s)
    (grows : Grows n a a') (log : a'.log n = a.log n ++ [e]) (term : a'.term n = a.term n)
    (index : e.index = (a.log n).length + 1) (stored : s.perform (.entry e) = some s') :
    Durable M a' n s' ∧ s'.snapIndex = s.snapIndex := by
  have inside : s.snapIndex ≤ (a.log n).length := h.log.le
  obtain ⟨x, performed, held, same⟩ := perform_entry h.log index inside le_rfl
  cases performed.symm.trans stored
  rw [List.take_length] at held
  refine ⟨⟨?_, log ▸ held, ?_, ?_⟩, same.snapIndex⟩
  · rw [MemStorage.hardState, same.hs, term]
    exact h.term
  · rw [log, term, same.snapIndex]
    exact committed_append e grows h.committed inside
  · rw [log, same.snapIndex, same.snapMeta, same.snapshot, List.take_append_of_le_length inside]
    exact h.covers

/-- A leader with one more entry of its own. -/
theorem node_append {s' : MemStorage ID} {e : Entry} {r : Raft ID} (h : Node M a n p)
    (grows : Grows n a a') (log : a'.log n = a.log n ++ [e]) (sameTerm : a'.term n = a.term n)
    (durable : Durable M a' n s') (stored : s'.snapIndex = p.storage.snapIndex)
    (term : r.term = p.raft.term)
    (rlog : r.rlog = { p.raft.rlog with entries := p.raft.rlog.entries ++ [e] })
    (commit : r.commitIndex = p.raft.commitIndex)
    (applied : r.lastApplied = p.raft.lastApplied)
    (pending : r.pendingSnapshot = p.raft.pendingSnapshot) (state : r.state = .leader)
    (leads : Leads a' n r) : Node M a' n { p with raft := r, storage := s' } := by
  have longer : (a.log n).length ≤ (a.log n ++ [e]).length := by simp
  have held : Holds (a.log n ++ [e]) r.rlog := by
    refine rlog ▸ ⟨h.log.le.trans longer, ?_, ?_⟩
    · rw [h.log.snapTerm]
      exact Consensus.termAt_eq_of_pre (List.prefix_append _ _) h.log.le
    · simp only [h.log.entries]
      rw [List.drop_append_of_le_length h.log.le]
  have snap : r.rlog.snapIndex = p.raft.rlog.snapIndex := by rw [rlog]
  exact
    { durable := durable
      term := term.trans (h.term.trans sameTerm.symm)
      log := log ▸ held
      snap_le := by
        change r.rlog.snapIndex ≤ s'.snapIndex
        rw [snap, stored]
        exact h.snap_le
      stored_le := by
        change s'.snapIndex ≤ r.commitIndex
        rw [commit, stored]
        exact h.stored_le
      commit_le := by
        change r.commitIndex ≤ _
        rw [commit, log]
        exact h.commit_le.trans longer
      committed := by
        change CommittedBy _ _ (List.take r.commitIndex _)
        rw [commit, log, sameTerm]
        exact committed_append e grows h.committed h.commit_le
      leads := fun _ => leads
      stands := fun st => by rw [state] at st; cases st
      calls := fun c hc => callRel_grows grows (h.calls c hc)
      working := by
        refine working_mono h.working ?_ commit.ge applied pending rfl rfl stored.ge snap
        rw [log, List.take_append_of_le_length h.commit_le] }

/-- Nobody else was elected in the term: the two majorities would share a voter. -/
theorem elect_vacant {cfg : Config ID} (sound : Sound cfg a) {t : Nat} (vacant : a.leader t ≠ some n)
    (votes : IsMajority cfg.peers fun v => a.voted v t n)
    (unique : ∀ {v t c c'}, a.voted v t c → a.voted v t c' → c = c') : a.leader t = none := by
  cases led : a.leader t with
  | none => rfl
  | some m =>
      obtain ⟨v, own, other⟩ := Consensus.isMajority_meets votes (sound.inv.leader_votes led)
      rw [led, unique own other] at vacant
      exact absurd rfl vacant

/-- A leader may learn more of what its peers hold, and choose where to go on. -/
theorem node_match (h : Node M a n p) (state : p.raft.state = .leader)
    {matchIndex nextIndex : ID → Nat} (known : ∀ q, matchIndex q ≤ a.acked q p.raft.term)
    (bound : ∀ q, nextIndex q ≤ (a.log n).length + 1) :
    Node M a n { p with raft := { p.raft with matchIndex, nextIndex } } := by
  obtain ⟨leader, commit, -, noop, -⟩ := h.leads state
  exact
    { durable := h.durable
      term := h.term
      log := h.log
      snap_le := h.snap_le
      stored_le := h.stored_le
      commit_le := h.commit_le
      committed := h.committed
      leads := fun _ => ⟨leader, commit, known, noop, bound⟩
      stands := fun st => by rw [state] at st; cases st
      calls := h.calls
      working := working_mono h.working rfl le_rfl rfl rfl rfl rfl le_rfl rfl }

/-- What a peer has acknowledged is in the leader's log. -/
theorem acked_le_log {cfg : Config ID} (sound : Sound cfg a) (h : Node M a n p)
    (state : p.raft.state = .leader) (q : ID) : a.acked q p.raft.term ≤ (a.log n).length := by
  have leader := (h.leads state).leader
  rw [h.term] at leader ⊢
  rw [sound.inv.leader_log leader rfl]
  exact sound.inv.acked_le q _

variable [DecidableEq ID] {cfg : Config ID}

theorem others_perm (cfg : Config ID) {self : ID} (member : self ∈ cfg.peers) :
    (self :: cfg.others self).Perm cfg.peers := by
  have split := List.perm_cons_erase member
  rw [cfg.distinct.erase_eq_filter] at split
  refine List.Perm.trans (.of_eq ?_) split.symm
  congr 1
  exact List.filter_congr fun x _ => by simp [bne, BEq.beq]

/-- A majority stores what `commitCandidate` returns. -/
theorem commitCandidate_majority (r : Raft ID) (member : n ∈ cfg.peers)
    (pos : 0 < r.commitCandidate cfg n) :
    IsMajority cfg.peers fun v =>
      r.commitCandidate cfg n ≤ if v = n then r.rlog.lastIndex else r.matchIndex v := by
  have perm := others_perm cfg member
  have distinct : (n :: cfg.others n).Nodup := perm.nodup_iff.mpr cfg.distinct
  have values : r.rlog.lastIndex :: (cfg.others n).map r.matchIndex =
      (n :: cfg.others n).map fun v => if v = n then r.rlog.lastIndex else r.matchIndex v := by
    rw [List.map_cons, if_pos rfl]
    congr 1
    refine List.map_congr_left fun v hv => ?_
    have : v ≠ n := by simpa [Config.others] using (List.mem_filter.mp hv).2
    rw [if_neg this]
  refine Consensus.isMajority_perm (Consensus.isMajority_sorted distinct _ ?_) perm
  have size : (n :: cfg.others n).length = cfg.peers.length := perm.length_eq
  rw [Raft.commitCandidate] at pos ⊢
  simp only [values, List.length_map, Config.quorum, size] at pos ⊢
  cases hc : (((n :: cfg.others n).map fun v =>
      if v = n then r.rlog.lastIndex else r.matchIndex v).insertionSort (· ≤ ·))[
        cfg.peers.length - (cfg.peers.length / 2 + 1)]? with
  | none => rw [hc] at pos; cases pos
  | some c => rfl

/-- Committing is an acknowledgement by the leader itself followed by a commit. -/
theorem advanceCommit_ended (sound : Sound cfg a) (member : n ∈ cfg.peers) (h : Node M a n p)
    (state : p.raft.state = .leader) :
    Ended cfg M n a { p with raft := p.raft.advanceCommitLocked cfg n } := by
  obtain ⟨leader, commit, matched, noop, next⟩ := h.leads state
  rw [Raft.advanceCommitLocked_eq]
  split
  next advance =>
    obtain ⟨later, own⟩ := advance
    generalize hc : p.raft.commitCandidate cfg n = c at later own ⊢
    have termPos := leader_term_pos sound leader
    have termEq := h.term
    have inside : c ≤ (a.log n).length := by
      by_contra beyond
      rw [holds_term h.log, if_pos (Or.inr (by omega))] at own
      simp only [Option.getD_none] at own
      omega
    have above : p.raft.rlog.snapIndex ≤ c := (h.snap_le.trans h.stored_le).trans later.le
    rw [holds_term_some h.log above inside] at own
    have own : termAt Entry.term (a.log n) c = a.term n := own.trans termEq
    rw [termEq] at leader commit matched
    have ledger : a.log n = a.ledger (a.term n) := sound.inv.leader_log leader rfl
    have acked : Consensus.Step (majority cfg.peers) Entry.term n a (a.ack n c) :=
      .ack c (ledger ▸ inside) (ledger ▸ List.take_prefix _ _)
    have committed : Consensus.Step (majority cfg.peers) Entry.term n (a.ack n c)
        ((a.ack n c).commitTo n c) := by
      refine .commitTo c leader (by exact lt_of_le_of_lt commit later) ?_ ?_
      · change termAt Entry.term (a.ledger (a.term n)) c = a.term n
        rw [← ledger]
        exact own
      · have votes := commitCandidate_majority p.raft member (by omega : 0 < _)
        rw [hc] at votes
        refine Consensus.isMajority_mono votes fun v hv => ?_
        change c ≤ (if v = n ∧ a.term n = a.term n then _ else _)
        by_cases self : v = n
        · rw [if_pos ⟨self, rfl⟩]
          exact le_max_right _ _
        · rw [if_neg (by tauto)]
          rw [if_neg self] at hv
          exact hv.trans (matched v)
    have commitEq : ((a.ack n c).commitTo n c).commit (a.term n) = c := by
      simp [Consensus.State.commitTo, Consensus.State.ack]
    have commits : Commits cfg n { p.raft with commitIndex := c } a
        ((a.ack n c).commitTo n c) := by
      refine ⟨.tail (.single acked) committed, rfl, rfl, rfl, fun t => ?_, node_known h⟩
      by_cases own : t = a.term n
      · subst own
        exact Or.inr ⟨state, termEq, commitEq.le⟩
      · left
        simp [Consensus.State.commitTo, Consensus.State.ack, Function.update_of_ne own]
    have grows := commits.grows sound
    refine ⟨_, commits, ?_⟩
    exact
      { durable := ⟨h.durable.term, h.durable.log,
          Consensus.committedBy_grows grows h.durable.committed, h.durable.covers⟩
        term := termEq
        log := h.log
        snap_le := h.snap_le
        stored_le := h.stored_le.trans later.le
        commit_le := inside
        committed := by
          refine ⟨a.term n, le_rfl, c, commitEq.ge, ledger ▸ inside, ?_⟩
          change (a.log n).take c = (a.ledger (a.term n)).take c
          rw [ledger]
        leads := fun _ => by
          refine ⟨?_, ?_, fun q => ?_, noop, next⟩
          · change a.leader p.raft.term = some n
            rw [termEq]; exact leader
          · change ((a.ack n c).commitTo n c).commit p.raft.term ≤ c
            rw [termEq, commitEq]
          · change p.raft.matchIndex q ≤ _
            rw [termEq]
            exact (matched q).trans (grows.acked q _)
        stands := fun st => by rw [state] at st; cases st
        calls := fun c hc => callRel_grows grows (h.calls c hc)
        working := working_mono h.working rfl later.le rfl rfl rfl rfl le_rfl rfl }
  · exact Ended.node (node_congr h rfl)

theorem indexed_append (sound : Sound cfg a) {e : Entry} (led : a.leader (a.term n) = some n)
    (index : e.index = (a.log n).length + 1) (t : Nat) : Indexed ((a.append n e).ledger t) := by
  have ledger : a.log n = a.ledger (a.term n) := sound.inv.leader_log led rfl
  by_cases same : t = a.term n
  · subst same
    simp only [Consensus.State.append, Function.update_self]
    exact indexed_concat (sound.indexed _) (ledger ▸ index)
  · simp only [Consensus.State.append, Function.update_of_ne same]
    exact sound.indexed t

theorem moves_append (sound : Sound cfg a) {e : Entry} (led : a.leader (a.term n) = some n)
    (own : e.term = a.term n) (index : e.index = (a.log n).length + 1) :
    Moves cfg n [.entry e] a (a.append n e) := by
  refine .one (.append e led own) (by simp [Consensus.State.append])
    (indexed_append sound led index) (fun t x hx => ?_) rfl
  by_cases same : t = a.term n
  · subst same
    simp only [Consensus.State.append, Function.update_self] at hx
    rcases List.mem_append.mp hx with old | new
    · exact Or.inl ⟨_, old⟩
    · exact Or.inr (List.mem_singleton.mp new ▸ List.mem_singleton.mpr rfl)
  · simp only [Consensus.State.append, Function.update_of_ne same] at hx
    exact Or.inl ⟨t, hx⟩

/-- A candidate that is elected makes its log the ledger of its term. -/
theorem moves_elect (sound : Sound cfg a) (vacant : a.leader (a.term n) = none)
    (stood : a.cand (a.term n) n = some (a.log n))
    (votes : IsMajority cfg.peers fun v => a.voted v (a.term n) n) :
    Moves cfg n [] a (a.elect n) := by
  refine .one (.elect vacant stood votes) (by simp [Consensus.State.elect]) (fun t => ?_)
    (fun t x hx => ?_) rfl
  · by_cases same : t = a.term n
    · subst same
      simp only [Consensus.State.elect, Function.update_self]
      exact log_indexed sound n
    · simp only [Consensus.State.elect, Function.update_of_ne same]
      exact sound.indexed t
  · by_cases same : t = a.term n
    · subst same
      simp only [Consensus.State.elect, Function.update_self] at hx
      exact Or.inl (Consensus.matched_mem (sound.inv.log_matched n) hx)
    · simp only [Consensus.State.elect, Function.update_of_ne same] at hx
      exact Or.inl ⟨t, hx⟩

/-- The leader's entries become durable one by one, each an append of its own. -/
theorem ownEntries_sim (sound : Sound cfg a) (h : Node M a n p) (state : p.raft.state = .leader)
    (es : List Entry)
    (own : ∀ k e, es[k]? = some e →
      e.term = p.raft.term ∧ e.index = p.raft.rlog.lastIndex + 1 + k) :
    Sim cfg M n a p.storage (es.map .entry) fun a' s' =>
      Node M a' n
        { p with
          raft := { p.raft with
            rlog := { p.raft.rlog with entries := p.raft.rlog.entries ++ es } }
          storage := s' } := by
  induction es generalizing a p with
  | nil => exact Sim.idle sound h.durable (node_congr h (by simp [Process.core]))
  | cons e es ih =>
      obtain ⟨leader, commit, matched, noop, next⟩ := h.leads state
      obtain ⟨ownTerm, ownIndex⟩ := own 0 e rfl
      have termPos := leader_term_pos sound leader
      have index : e.index = (a.log n).length + 1 := by rw [ownIndex, holds_lastIndex h.log]
      have moves := moves_append sound (h.term ▸ leader) (ownTerm.trans h.term) index
      have grows := moves.grows sound
      have log : (a.append n e).log n = a.log n ++ [e] := by simp [Consensus.State.append]
      have first : Sim cfg M n a p.storage [.entry e] fun a' s' =>
          Node M a' n
            { p with
              raft := { p.raft with
                rlog := { p.raft.rlog with entries := p.raft.rlog.entries ++ [e] } }
              storage := s' } := by
        refine Sim.single sound h.durable fun s' stored => ?_
        obtain ⟨durable, snap⟩ := durable_append h.durable grows log rfl index stored
        refine ⟨_, moves, durable, ?_⟩
        refine node_append h grows log rfl durable snap rfl rfl rfl rfl rfl state ?_
        refine ⟨leader, commit, matched, ?_, fun q => ?_⟩
        rotate_left
        · rw [log, List.length_append]
          exact (next q).trans (by omega)
        have inside : p.raft.noopIndex ≤ (a.log n).length := by
          by_contra beyond
          rw [Consensus.termAt_beyond (by omega)] at noop
          omega
        change termAt Entry.term ((a.append n e).log n) p.raft.noopIndex = p.raft.term
        rw [log, ← Consensus.termAt_eq_of_pre (List.prefix_append _ _) inside]
        exact noop
      refine first.bind fun a' s' moves' node => ?_
      refine (ih (moves'.sound sound) node state fun k x hx => ?_).mono fun a'' s'' _ node' => ?_
      · have := own (k + 1) x hx
        simp only [RaftLog.lastIndex, List.length_append, List.length_singleton] at this ⊢
        omega
      · simpa using node'

theorem appendProposals_sim (sound : Sound cfg a) (member : n ∈ cfg.peers) (h : Node M a n p)
    (batch : List Proposal) :
    Sim cfg M n a p.storage (p.raft.appendProposals cfg n batch).1 fun a' s' =>
      ∀ r', (p.raft.appendProposals cfg n batch).2 = some r' →
        Ended cfg M n a' { p with raft := r', storage := s' } := by
  simp only [Raft.appendProposals]
  split
  · refine Sim.idle sound h.durable fun r' hr => ?_
    cases hr
    exact Ended.node (node_congr h rfl)
  next able =>
    have state : p.raft.state = .leader := by tauto
    split
    · exact Sim.idle sound h.durable fun r' hr => by cases hr
    next rlog appended =>
      have entries := ownEntries_sim sound h state (p.raft.proposalEntries batch) fun k e hk => by
        obtain ⟨q, -, rfl⟩ := p.raft.proposalEntries_at hk
        exact ⟨rfl, rfl⟩
      refine entries.mono fun a' s' moves node => ?_
      have waiting : Node M a' n
          { p with
            raft :=
              { p.raft with
                rlog
                waiters := (p.raft.batchWaiters batch).foldl Raft.addWaiter p.raft.waiters }
            storage := s' } := by
        rw [append_eq appended]
        exact node_congr node rfl
      have ended := advanceCommit_ended (moves.sound sound) member waiting state
      intro r' hr
      cases hr
      exact ended

/-- Winning an election: the no-op is the first entry of the new ledger. -/
theorem becomeLeader_sim (sound : Sound cfg a) (member : n ∈ cfg.peers) (h : Node M a n p)
    (state : p.raft.state = .candidate)
    (votes : IsMajority cfg.peers fun v => a.voted v p.raft.term n)
    (unique : ∀ {v t c c'}, a.voted v t c → a.voted v t c' → c = c') (now : Nat) :
    Sim cfg M n a p.storage (p.raft.becomeLeaderLocked cfg n now).1 fun a' s' =>
      ∀ r', (p.raft.becomeLeaderLocked cfg n now).2 = some r' →
        Ended cfg M n a' { p with raft := r', storage := s' } := by
  obtain ⟨stood, notUs⟩ := h.stands state
  have vacant := elect_vacant sound notUs votes unique
  simp only [Raft.becomeLeaderLocked]
  split
  · exact Sim.idle sound h.durable fun r' hr => by cases hr
  next rlog appended =>
    rw [append_eq appended]
    generalize hnoop : p.raft.noopEntry = noop
    have ownTerm : noop.term = a.term n := by rw [← hnoop]; exact h.term
    have index : noop.index = (a.log n).length + 1 := by
      rw [← hnoop, Raft.noopEntry, holds_lastIndex h.log]
    rw [h.term] at stood votes vacant
    have elected := moves_elect sound vacant stood votes
    have leader : (a.elect n).leader (a.term n) = some n := by simp [Consensus.State.elect]
    have moves := elected.trans (moves_append (elected.sound sound) leader ownTerm index)
    have grows := moves.grows sound
    have log : ((a.elect n).append n noop).log n = a.log n ++ [noop] := by
      simp [Consensus.State.append, Consensus.State.elect]
    have uncommitted : a.commit (a.term n) = 0 := by
      by_contra some
      have bound := (sound.inv.committed (Nat.pos_of_ne_zero some)).1
      rw [sound.inv.vacant vacant, List.length_nil] at bound
      omega
    have first : Sim cfg M n a p.storage (p.raft.persistLocked false [noop]) fun a' s' =>
        Node M a' n
          { p with
            raft :=
              { p.raft with
                state := .leader
                leaderID := some n
                transferTarget := none
                nextIndex := fun q =>
                  if decide (q ∈ cfg.others n) then p.raft.rlog.lastIndex + 1 else 0
                matchIndex := fun _ => 0
                ackedSendTime := fun q => if decide (q ∈ cfg.others n) then now else 0
                rlog := { p.raft.rlog with entries := p.raft.rlog.entries ++ [noop] }
                noopIndex := noop.index }
            storage := s' } := by
      refine Sim.single sound h.durable fun s' stored => ?_
      obtain ⟨durable, snap⟩ := durable_append h.durable grows log rfl index stored
      refine ⟨_, moves, durable, ?_⟩
      refine node_append h grows log rfl durable snap rfl rfl rfl rfl rfl rfl ?_
      refine ⟨?_, ?_, fun q => Nat.zero_le _, ?_, fun q => ?_⟩
      · rw [h.term]; exact leader
      · change a.commit p.raft.term ≤ _
        rw [h.term, uncommitted]
        exact Nat.zero_le _
      · change termAt Entry.term (((a.elect n).append n noop).log n) noop.index = p.raft.term
        rw [log, index, Consensus.termAt_concat, ownTerm, h.term]
      · simp only [log, List.length_append, holds_lastIndex h.log]
        split <;> omega
    refine first.mono fun a' s' moves' node => ?_
    have ended := advanceCommit_ended (moves'.sound sound) member node rfl
    intro r' hr
    cases hr
    exact ended

theorem node_matchPeer (h : Node M a n p) (state : p.raft.state = .leader) {peer : ID} {m : Nat}
    {nextIndex : ID → Nat} (acked : m ≤ a.acked peer p.raft.term)
    (bound : ∀ q, nextIndex q ≤ (a.log n).length + 1) :
    Node M a n
      { p with
        raft := { p.raft with matchIndex := Function.update p.raft.matchIndex peer m, nextIndex } } :=
  node_match h state
    (update_le_iff.mpr ⟨acked, fun q _ => (h.leads state).matched q⟩) bound

theorem next_le (h : Node M a n p) (state : p.raft.state = .leader) (peer : ID) {i : Nat}
    (le : i ≤ (a.log n).length + 1) (q : ID) :
    Function.update p.raft.nextIndex peer i q ≤ (a.log n).length + 1 := by
  have all : Function.update p.raft.nextIndex peer i ≤ fun _ => (a.log n).length + 1 :=
    update_le_iff.mpr ⟨le, fun q _ => (h.leads state).next q⟩
  exact all q

theorem node_recordAck (h : Node M a n p) (peer : ID) (sentAt : Nat) :
    Node M a n { p with raft := p.raft.recordAckLocked peer sentAt } := by
  simp only [Raft.recordAckLocked]
  split
  · exact node_congr h rfl
  · exact h

theorem onReply_sim (sound : Sound cfg a) (h : Node M a n p) (respTerm reqTerm : Nat) (peer : ID)
    (sentAt : Nat) (handle : Raft ID → Raft ID)
    (handled : ∀ r, Node M a n { p with raft := r } → r.state = .leader → r.term = p.raft.term →
      respTerm ≤ p.raft.term → p.raft.term = reqTerm →
        Ended cfg M n a { p with raft := handle r }) :
    Sim cfg M n a p.storage (p.raft.onReply respTerm reqTerm peer sentAt handle).2 fun a' s' =>
      Ended cfg M n a'
        { p with raft := (p.raft.onReply respTerm reqTerm peer sentAt handle).1, storage := s' } := by
  simp only [Raft.onReply]
  split
  · exact (becomeFollower_sim sound h respTerm none).mono fun a' s' _ node => Ended.node node
  next notLater =>
    split
    · exact Sim.idle sound h.durable (Ended.node h)
    next current =>
      rw [not_or, not_not, not_not] at current
      have acked := node_recordAck h peer sentAt
      have state : (p.raft.recordAckLocked peer sentAt).state = .leader := by
        simp only [Raft.recordAckLocked]
        split <;> exact current.1
      have term : (p.raft.recordAckLocked peer sentAt).term = p.raft.term := by
        simp only [Raft.recordAckLocked]
        split <;> rfl
      exact Sim.idle sound h.durable (handled _ acked state term (by omega) current.2)

/-- A leader may look back for the next request, as long as it stays within its log. -/
theorem node_next (h : Node M a n p) (state : p.raft.state = .leader) (peer : ID) (next : Nat) :
    Node M a n
      { p with
        raft :=
          { p.raft with
            nextIndex := Function.update p.raft.nextIndex peer
              (max 1 (min next (p.raft.rlog.lastIndex + 1))) } } := by
  refine node_match h state (h.leads state).matched (next_le h state peer ?_)
  rw [holds_lastIndex h.log]
  omega

theorem handleAppendReply_sim (sound : Sound cfg a) (member : n ∈ cfg.peers) (h : Node M a n p)
    {peer : ID} {sentAt : Nat} {req : AppendEntriesRequest ID} {resp : AppendEntriesResponse}
    (rel : resp.success = true →
      req.prevLogIndex + req.entries.length ≤ a.acked peer req.term) :
    Sim cfg M n a p.storage (p.raft.handleAppendReply cfg n peer sentAt req resp).2 fun a' s' =>
      Ended cfg M n a'
        { p with
          raft := (p.raft.handleAppendReply cfg n peer sentAt req resp).1
          storage := s' } := by
  refine onReply_sim sound h _ _ peer sentAt _ fun r node state term _ same => ?_
  simp only [Raft.appendReplyLocked]
  split
  next success =>
    split
    · have acked : req.prevLogIndex + req.entries.length ≤ a.acked peer r.term := by
        rw [term, same]
        exact rel success
      have bound := acked.trans (acked_le_log sound node state peer)
      have matched := node_matchPeer node state acked
        (next_le node state peer (Nat.succ_le_succ bound))
      have ended := advanceCommit_ended sound member matched state
      exact ended
    · exact Ended.node node
  · exact Ended.node (node_next node state peer _)

theorem handleInstallReply_sim (sound : Sound cfg a) (member : n ∈ cfg.peers) (h : Node M a n p)
    {peer : ID} {sentAt : Nat} {req : InstallSnapshotRequest ID} {resp : InstallSnapshotResponse}
    (rel : resp.term ≤ req.term → req.lastIncludedIndex ≤ a.acked peer req.term) :
    Sim cfg M n a p.storage (p.raft.handleInstallReply cfg n peer sentAt req resp).2 fun a' s' =>
      Ended cfg M n a'
        { p with
          raft := (p.raft.handleInstallReply cfg n peer sentAt req resp).1
          storage := s' } := by
  refine onReply_sim sound h _ _ peer sentAt _ fun r node state term notLater same => ?_
  have acked : req.lastIncludedIndex ≤ a.acked peer r.term := by
    rw [term, same]
    exact rel (same ▸ notLater)
  have told {a' : Abs ID} {r' : Raft ID} (sound' : Sound cfg a')
      (node' : Node M a' n { p with raft := r' }) (state' : r'.state = .leader) :
      Node M a' n
        { p with
          raft :=
            { r' with
              nextIndex := Function.update r'.nextIndex peer (r'.matchIndex peer + 1) } } := by
    have matched := (node'.leads state').matched
    exact node_match node' state' matched (next_le node' state' peer
      (Nat.succ_le_succ ((matched peer).trans (acked_le_log sound' node' state' peer))))
  simp only [Raft.installReplyLocked]
  split
  · obtain ⟨a', commits, node'⟩ := advanceCommit_ended sound member
      (node_matchPeer node state acked (node.leads state).next) state
    refine ⟨a', ⟨commits.steps, commits.voted, commits.log, commits.ledger, commits.commit,
      commits.known⟩, told (commits.sound sound) node' ?_⟩
    rw [Raft.advanceCommitLocked_eq]
    exact state
  · exact Ended.node (told sound node state)

end EdgeKV
