import EdgeKV.Raft.Simulation.Terms

/-!
The follower: taking over entries and snapshots from the leader of its term. Both
are the protocol's `accept`, followed by an acknowledgement. What the follower has
committed is a prefix of the leader's ledger, so a conflict always lies beyond it:
this is what stands in for the consistency check below the snapshot index.
-/
namespace EdgeKV

open Consensus (termAt CommittedBy Grows majority adopt)

variable {ID σ : Type} {M : StateMachine σ} {a a' : Abs ID} {n : ID} {p : Process ID σ}

section Agreement

variable {cfg : Config ID}

/-- What a node has committed is a prefix of the ledger of its term. -/
theorem committed_prefix (sound : Sound cfg a) (h : Node M a n p)
    (led : a.leader (a.term n) ≠ none) :
    (a.log n).take p.raft.commitIndex <+: a.ledger (a.term n) :=
  Consensus.committed_ledger sound.inv h.committed led

theorem committed_common (sound : Sound cfg a) (h : Node M a n p)
    (led : a.leader (a.term n) ≠ none) {i : Nat} (le : i ≤ p.raft.commitIndex) :
    (a.log n).take i = (a.ledger (a.term n)).take i ∧ i ≤ (a.ledger (a.term n)).length := by
  have pre := committed_prefix sound h led
  have len := pre.length_le
  rw [List.length_take, Nat.min_eq_left h.commit_le] at len
  have same := Consensus.take_eq_of_common pre List.prefix_rfl (i := i)
    (by rw [List.length_take, Nat.min_eq_left h.commit_le]; exact le) (le.trans len)
  rw [List.take_take, Nat.min_eq_left le] at same
  exact ⟨same, le.trans len⟩

/-- A node and the ledger of its term agree up to an index at which their terms do. -/
theorem ledger_agree (sound : Sound cfg a) (n : ID) (t : Nat) :
    ∀ i, i ≤ (a.log n).length → i ≤ (a.ledger t).length →
      termAt Entry.term (a.log n) i = termAt Entry.term (a.ledger t) i →
        (a.log n).take i = (a.ledger t).take i :=
  fun _ own ledger same => Consensus.matched_agree (sound.inv.log_matched n)
    (Consensus.ledger_matched sound.inv t) own ledger same

end Agreement

/-- Where a follower's log parts from the ledger, the ledger replaces it. -/
theorem adopt_fresh {P L : List Entry} {j q : Nat} (differs : ¬ P.take (j + 1) <+: L)
    (beyond : j < q) : adopt P q L = P.take q :=
  Consensus.adopt_of_conflict fun pre => differs (Consensus.take_pre_of_le pre beyond)

/-- A node whose log was changed beyond its commit index, and whose commit index may
have moved. -/
theorem node_follow {r : Raft ID} {s : MemStorage ID} (h : Node M a n p) (grows : Grows n a a')
    (durable : Durable M a' n s) (stored : s.snapIndex = p.storage.snapIndex)
    (sameTerm : a'.term n = a.term n)
    (kept : (a'.log n).take p.raft.commitIndex = (a.log n).take p.raft.commitIndex)
    (term : r.term = p.raft.term) (log : Holds (a'.log n) r.rlog)
    (snap : r.rlog.snapIndex = p.raft.rlog.snapIndex)
    (commit : p.raft.commitIndex ≤ r.commitIndex) (commit_le : r.commitIndex ≤ (a'.log n).length)
    (committed : CommittedBy a' (a'.term n) ((a'.log n).take r.commitIndex))
    (applied : r.lastApplied = p.raft.lastApplied)
    (pending : r.pendingSnapshot = p.raft.pendingSnapshot) (state : r.state = .follower) :
    Node M a' n { p with raft := r, storage := s } where
  durable := durable
  term := term.trans (h.term.trans sameTerm.symm)
  log := log
  snap_le := by
    change r.rlog.snapIndex ≤ s.snapIndex
    rw [snap, stored]
    exact h.snap_le
  stored_le := by
    change s.snapIndex ≤ r.commitIndex
    rw [stored]
    exact h.stored_le.trans commit
  commit_le := commit_le
  committed := committed
  leads := fun st => by rw [state] at st; cases st
  stands := fun st => by rw [state] at st; cases st
  calls := fun c hc => callRel_grows grows (h.calls c hc)
  working := working_mono h.working kept commit applied pending rfl rfl stored.ge snap

/-- Learning the leader's commit index, over entries known to be the leader's. -/
theorem node_learnCommit {req : AppendEntriesRequest ID} (h : Node M a n p)
    (rel : AppendRel a req)
    (term : p.raft.term = req.term) (state : p.raft.state = .follower)
    (inside : req.prevLogIndex + req.entries.length ≤ (a.log n).length)
    (common : (a.log n).take (req.prevLogIndex + req.entries.length) =
      (a.ledger req.term).take (req.prevLogIndex + req.entries.length)) :
    Node M a n { p with raft := p.raft.learnCommit req } := by
  simp only [Raft.learnCommit]
  split
  next later =>
    have known := Consensus.committedBy_take rel.committed
      (min req.leaderCommit (req.prevLogIndex + req.entries.length))
    rw [List.take_take, Nat.min_eq_left (Nat.min_le_left _ _)] at known
    have agreed := congrArg
      (List.take (min req.leaderCommit (req.prevLogIndex + req.entries.length))) common
    rw [List.take_take, List.take_take, Nat.min_eq_left (Nat.min_le_right _ _)] at agreed
    refine node_follow h (Consensus.grows_refl n a) h.durable rfl rfl rfl rfl h.log rfl later.le
      ((Nat.min_le_right _ _).trans inside) ?_ rfl rfl state
    rw [agreed, ← h.term, term]
    exact known
  · exact h

theorem durable_snapshot {s : MemStorage ID} {snapMeta : SnapshotMeta} {data : Bytes}
    {entries : List Entry} (term : s.hardState.term = a.term n)
    (log : Holds (a.log n)
      (MemStorage.log { s with snapMeta := some snapMeta, snapshot := data, entries }))
    (committed : CommittedBy a (a.term n) ((a.log n).take snapMeta.lastIncludedIndex))
    (covers : Covers M data ((a.log n).take snapMeta.lastIncludedIndex)) :
    Durable M a n { s with snapMeta := some snapMeta, snapshot := data, entries } :=
  ⟨term, log, committed, fun _ => covers⟩

/-- A node after taking over a snapshot that its log leads up to. -/
theorem node_install {req : InstallSnapshotRequest ID} {rlog : RaftLog} {s : MemStorage ID}
    (h : Node M a n p) (grows : Grows n a a') (durable : Durable M a' n s)
    (sameTerm : a'.term n = a.term n)
    (kept : (a'.log n).take p.raft.commitIndex = (a.log n).take p.raft.commitIndex)
    (log : Holds (a'.log n) rlog) (snap : rlog.snapIndex = req.lastIncludedIndex)
    (stored : s.snapIndex = req.lastIncludedIndex)
    (later : p.raft.commitIndex < req.lastIncludedIndex)
    (covers : Covers M req.data ((a'.log n).take req.lastIncludedIndex))
    (state : p.raft.state = .follower) :
    Node M a' n
      { p with
        raft :=
          { p.raft with
            rlog, commitIndex := req.lastIncludedIndex, pendingSnapshot := some req }
        storage := s } where
  durable := durable
  term := h.term.trans sameTerm.symm
  log := log
  snap_le := (snap.trans stored.symm).le
  stored_le := stored.le
  commit_le := snap ▸ log.le
  committed := stored ▸ durable.committed
  leads := fun st => by rw [state] at st; cases st
  stands := fun st => by rw [state] at st; cases st
  calls := fun c hc => callRel_grows grows (h.calls c hc)
  working := by
    refine working_update h.working kept later.le rfl rfl rfl ?_ ?_ ?_
    · change p.storage.snapIndex ≤ s.snapIndex
      rw [stored]
      exact h.stored_le.trans later.le
    · intro snap' new
      cases new
      exact Or.inr ⟨h.working.horizon_le.trans_lt later, Nat.le_refl _, covers⟩
    · exact snap.le.trans (Nat.le_max_right _ _)

variable [DecidableEq ID] {cfg : Config ID}

theorem moves_accept (sound : Sound cfg a) {q : Nat} (led : a.leader (a.term n) ≠ none)
    {ops : List (StorageOp ID)} (plain : ∀ t c, StorageOp.hardState ⟨t, some c⟩ ∉ ops) :
    Moves cfg n ops a (a.accept n q) :=
  .still sound (.accept q led) (by simp [Consensus.State.accept, plain]) rfl rfl

theorem moves_ack (sound : Sound cfg a) {t q : Nat} (current : a.term n = t)
    (bound : q ≤ (a.ledger t).length) (holds : (a.ledger t).take q <+: a.log n) :
    Moves cfg n [] a (a.ack n q) ∧ q ≤ (a.ack n q).acked n t := by
  subst current
  refine ⟨.still sound (.ack q bound holds) (by simp [Consensus.State.ack]) rfl rfl, ?_⟩
  simp [Consensus.State.ack]

theorem node_ack (sound : Sound cfg a) {q : Nat} (moves : Moves cfg n [] a (a.ack n q))
    (h : Node M a n p) : Node M (a.ack n q) n p := by
  have grows := moves.grows sound
  exact
    { durable := ⟨h.durable.term, h.durable.log,
        Consensus.committedBy_grows grows h.durable.committed, h.durable.covers⟩
      term := h.term
      log := h.log
      snap_le := h.snap_le
      stored_le := h.stored_le
      commit_le := h.commit_le
      committed := Consensus.committedBy_grows grows h.committed
      leads := fun state => by
        obtain ⟨leader, commit, matched, noop, next⟩ := h.leads state
        exact ⟨leader, commit, fun q => (matched q).trans (grows.acked q _), noop, next⟩
      stands := fun state => ⟨(h.stands state).stood, (h.stands state).vacant⟩
      calls := fun c hc => callRel_grows grows (h.calls c hc)
      working := h.working }

/-- Accepting the sender of a request as the leader of its term. -/
theorem followLocked_sim (sound : Sound cfg a) (h : Node M a n p) {t : Nat}
    (current : p.raft.term ≤ t) (leader : ID) :
    Sim cfg M n a p.storage (p.raft.followLocked t leader).2 fun a' s' =>
      Node M a' n { p with raft := (p.raft.followLocked t leader).1, storage := s' } ∧
        (p.raft.followLocked t leader).1.term = t ∧
        (p.raft.followLocked t leader).1.state = .follower := by
  simp only [Raft.followLocked]
  split
  · refine (becomeFollower_sim sound h t (some leader)).mono fun a' s' _ node => ⟨node, ?_⟩
    rw [Raft.becomeFollowerLocked_eq]
    exact ⟨Nat.max_eq_right current, rfl⟩
  next already =>
    have same : ¬ p.raft.term < t := fun later => already (Or.inl later)
    refine Sim.idle sound h.durable ⟨h, Nat.le_antisymm current (Nat.le_of_not_lt same), ?_⟩
    exact not_not.mp fun other => already (Or.inr (Or.inl other))

section Append

variable {P : List Entry} {j q : Nat}

theorem durable_accept {s s' : MemStorage ID} (h : Durable M a n s) (same : SameMeta s s')
    (grows : Grows n a (a.accept n q)) (above : s.snapIndex ≤ j) (beyond : j < q)
    (common : (a.log n).take j = (a.ledger (a.term n)).take j)
    (differs : ¬ (a.ledger (a.term n)).take (j + 1) <+: a.log n)
    (log : Holds ((a.ledger (a.term n)).take q) s'.log) : Durable M (a.accept n q) n s' := by
  have adopted : (a.accept n q).log n = (a.ledger (a.term n)).take q := by
    simp [Consensus.State.accept, adopt_fresh differs beyond]
  have kept : ((a.accept n q).log n).take s.snapIndex = (a.log n).take s.snapIndex := by
    have := congrArg (List.take s.snapIndex) common
    rw [List.take_take, List.take_take, Nat.min_eq_left above] at this
    rw [adopted, List.take_take, Nat.min_eq_left (by omega), this]
  refine ⟨?_, ?_, ?_, ?_⟩
  · rw [MemStorage.hardState, same.hs]; exact h.term
  · rw [adopted]; exact log
  · rw [same.snapIndex, kept]
    exact Consensus.committedBy_grows grows h.committed
  · rw [same.snapIndex, kept, same.snapMeta, same.snapshot]
    exact h.covers

/-- Storing what the log lacks of the ledger's first `q` entries: however many of
them become durable, the node has accepted that many. -/
theorem storeFresh_sim (sound : Sound cfg a) {s : MemStorage ID} (durable : Durable M a n s)
    {t : Nat} (current : a.term n = t) (led : a.leader t ≠ none) (above : s.snapIndex ≤ j)
    (inside : j ≤ (a.log n).length) (beyond : j < q) (len : q ≤ (a.ledger t).length)
    (common : (a.log n).take j = (a.ledger t).take j)
    (differs : ¬ (a.ledger t).take (j + 1) <+: a.log n) :
    Sim cfg M n a s ((((a.ledger t).take q).drop j).map .entry) fun a' s' =>
      a' = a.accept n q ∧ a'.log n = (a.ledger t).take q ∧ Durable M a' n s' ∧
        s'.snapIndex = s.snapIndex := by
  subst current
  generalize hP : a.ledger (a.term n) = P at *
  have size : ((P.take q).drop j).length = q - j := by
    rw [List.length_drop, List.length_take]; omega
  have reached (k : Nat) (some : 0 < k) (le : k ≤ q - j) {s' : MemStorage ID}
      (stored : s.performAll (((P.take (j + k)).drop j).map .entry) = Option.some s') :
      Moves cfg n (((P.take (j + k)).drop j).map .entry) a (a.accept n (j + k)) ∧
        Durable M (a.accept n (j + k)) n s' ∧ s'.snapIndex = s.snapIndex := by
    have moves : Moves cfg n (((P.take (j + k)).drop j).map .entry) a (a.accept n (j + k)) :=
      moves_accept sound led (by simp only [List.mem_map, reduceCtorEq, and_false, exists_false,
        not_false_eq_true, implies_true])
    obtain ⟨s'', stored', same, held⟩ := performAll_fresh durable.log (hP ▸ sound.indexed _) above
      inside common k (by omega)
    cases stored.symm.trans stored'
    rw [if_neg (by omega)] at held
    refine ⟨moves, ?_, same.snapIndex⟩
    subst hP
    exact durable_accept durable same (moves.grows sound) above (by omega) common differs
      held
  constructor
  · intro ops s' begun stored
    -- a crash after `k` of the entries
    obtain ⟨k, le, rfl⟩ : ∃ k, k ≤ q - j ∧ ops = ((P.take (j + k)).drop j).map .entry := by
      refine ⟨ops.length, ?_, ?_⟩
      · have := begun.length_le
        rwa [List.length_map, size] at this
      · have short := begun.length_le
        rw [List.length_map, size] at short
        have cut := List.prefix_iff_eq_take.mp begun
        rwa [← List.map_take, List.take_drop, List.take_take, Nat.min_eq_left (by omega)] at cut
    rcases Nat.eq_zero_or_pos k with rfl | pos
    · rw [Nat.add_zero, List.drop_eq_nil_of_le (by simp)] at stored ⊢
      cases stored
      exact ⟨a, Moves.refl n sound, durable⟩
    · obtain ⟨moves, durable', -⟩ := reached k pos le stored
      exact ⟨_, moves, durable'⟩
  · intro s' stored
    rw [show q = j + (q - j) by omega] at stored ⊢
    obtain ⟨moves, durable', same⟩ := reached (q - j) (by omega) le_rfl stored
    have adopted : (a.accept n (j + (q - j))).log n = P.take (j + (q - j)) := by
      simp only [Consensus.State.accept, Function.update_self, hP]
      exact adopt_fresh differs (by omega)
    exact ⟨_, moves, rfl, adopted, durable', same⟩

variable {req : AppendEntriesRequest ID}

/-- What a handled `AppendEntries` leaves: a node in place, and on success an
acknowledgement of all entries of the request. -/
def Appended (M : StateMachine σ) (n : ID) (p : Process ID σ) (req : AppendEntriesRequest ID)
    (result : Option (Raft ID × AppendEntriesResponse)) (a : Abs ID) (s : MemStorage ID) : Prop :=
  ∀ r resp, result = some (r, resp) → Node M a n { p with raft := r, storage := s } ∧
    (resp.success = true → req.prevLogIndex + req.entries.length ≤ a.acked n req.term)

theorem appended_refused {resp : AppendEntriesResponse} (sound : Sound cfg a) (h : Node M a n p)
    (refused : resp.success = false) :
    Sim cfg M n a p.storage [] (Appended M n p req (some (p.raft, resp))) := by
  refine Sim.idle sound h.durable fun r resp' result => ?_
  cases result
  exact ⟨h, fun yes => by rw [refused] at yes; cases yes⟩

theorem storeEntries_sim (sound : Sound cfg a) (h : Node M a n p) (rel : AppendRel a req)
    (term : p.raft.term = req.term) (state : p.raft.state = .follower) {prev : Nat}
    (above : p.raft.rlog.snapIndex ≤ prev)
    (le : prev ≤ req.prevLogIndex + req.entries.length) (inside : prev ≤ (a.log n).length)
    (common : (a.log n).take prev = (a.ledger req.term).take prev) {entries : List Entry}
    (rest : entries =
      ((a.ledger req.term).take (req.prevLogIndex + req.entries.length)).drop prev) :
    Sim cfg M n a p.storage (p.raft.storeEntries req entries).1
      (Appended M n p req (p.raft.storeEntries req entries).2) := by
  have current : a.term n = req.term := h.term.symm.trans term
  have led : a.leader (a.term n) ≠ none := by rw [current, rel.leader]; simp
  have len := rel.len
  subst rest
  rw [Raft.storeEntries]
  rcases mergeEntries_spec h.log (sound.indexed _) (ledger_agree sound n req.term) above le len inside
    common with ⟨merged, same, held⟩ | ⟨j, kept, from_, beyond, inside', shared, differs, log, snap, merged⟩
  · -- the log holds all of them already
    rw [merged]
    obtain ⟨moves, acked⟩ := moves_ack sound current len (same ▸ List.take_prefix _ _)
    refine Sim.silent sound h.durable moves fun r resp result => ?_
    cases result
    have learned := node_learnCommit h rel term state held same
    exact ⟨node_ack sound moves learned, fun _ => acked⟩
  · obtain ⟨rlog, appended, log', snap'⟩ := append_fresh log (sound.indexed _) beyond.le len
    rw [merged]
    simp only [appended]
    have past : p.raft.commitIndex ≤ j := by
      -- a committed entry cannot be in conflict with the ledger
      refine Nat.le_of_not_lt fun before => differs ?_
      rw [← current, ← (committed_common sound h led before).1]
      exact List.take_prefix _ _
    refine (storeFresh_sim sound h.durable current (current ▸ led) (h.stored_le.trans past) inside'
      beyond len shared differs).andThen fun a' s' moves post => ?_
    obtain ⟨rfl, adopted, durable, stored⟩ := post
    have sound' := moves.sound sound
    have grows := moves.grows sound
    have kept : ((a.accept n (req.prevLogIndex + req.entries.length)).log n).take
        p.raft.commitIndex = (a.log n).take p.raft.commitIndex := by
      have := congrArg (List.take p.raft.commitIndex) shared
      rw [List.take_take, List.take_take, Nat.min_eq_left past] at this
      rw [adopted, List.take_take, Nat.min_eq_left (by omega), this]
    have size : ((a.accept n (req.prevLogIndex + req.entries.length)).log n).length =
        req.prevLogIndex + req.entries.length := by
      rw [adopted, List.length_take, Nat.min_eq_left len]
    have node : Node M (a.accept n (req.prevLogIndex + req.entries.length)) n
        { p with raft := { p.raft with rlog }, storage := s' } := by
      refine node_follow h grows durable stored rfl kept rfl (adopted ▸ log') (snap'.trans snap)
        (Nat.le_refl _) ?_ ?_ rfl rfl state
      · rw [size]
        exact past.trans beyond.le
      · rw [kept]
        exact Consensus.committedBy_grows grows h.committed
    have learned := node_learnCommit node (appendRel_grows grows rel) term state size.ge
      (by rw [adopted, List.take_take, Nat.min_self]; rfl)
    obtain ⟨ack, acked⟩ := moves_ack sound' current len (adopted ▸ List.prefix_rfl)
    refine ⟨_, ack, fun r resp result => ?_⟩
    cases result
    exact ⟨node_ack sound' ack learned, fun _ => acked⟩

omit [DecidableEq ID] in
/-- Where the check of the previous entry passes, the log is the leader's up to it. -/
theorem checked_common (sound : Sound cfg a) (rel : AppendRel a req) {prev : Nat}
    (le : prev ≤ req.prevLogIndex + req.entries.length) (inside : prev ≤ (a.log n).length)
    (known : prev = req.prevLogIndex ∨ (a.log n).take prev = (a.ledger req.term).take prev)
    (agrees : ¬ (prev = req.prevLogIndex ∧
      termAt Entry.term (a.log n) prev ≠ req.prevLogTerm)) :
    (a.log n).take prev = (a.ledger req.term).take prev := by
  rcases known with start | common
  · have same := not_not.mp fun differs => agrees ⟨start, differs⟩
    refine ledger_agree sound n req.term prev inside (le.trans rel.len) ?_
    rw [same, rel.prevTerm, start]
  · exact common

theorem checkEntries_sim (sound : Sound cfg a) (h : Node M a n p) (rel : AppendRel a req)
    (term : p.raft.term = req.term) (state : p.raft.state = .follower) {prev : Nat}
    (above : p.raft.rlog.snapIndex ≤ prev)
    (le : prev ≤ req.prevLogIndex + req.entries.length)
    (known : prev = req.prevLogIndex ∨ (a.log n).take prev = (a.ledger req.term).take prev)
    {entries : List Entry}
    (rest : entries =
      ((a.ledger req.term).take (req.prevLogIndex + req.entries.length)).drop prev) :
    Sim cfg M n a p.storage (p.raft.checkEntries req prev entries).1
      (Appended M n p req (p.raft.checkEntries req prev entries).2) := by
  simp only [Raft.checkEntries, holds_lastIndex h.log]
  split
  · exact appended_refused sound h rfl
  next inside =>
    have inside := Nat.le_of_not_lt inside
    simp only [holds_term_some h.log above inside, Option.getD_some]
    split
    · exact appended_refused sound h rfl
    next agrees =>
      have common := checked_common sound rel le inside known agrees
      exact storeEntries_sim sound h rel term state above le inside common rest

theorem appendEntriesLocked_sim (sound : Sound cfg a) (h : Node M a n p) (rel : AppendRel a req)
    (term : p.raft.term = req.term) (state : p.raft.state = .follower) :
    Sim cfg M n a p.storage (p.raft.appendEntriesLocked req).1
      (Appended M n p req (p.raft.appendEntriesLocked req).2) := by
  simp only [Raft.appendEntriesLocked]
  split
  next compacted =>
    have current : a.term n = req.term := h.term.symm.trans term
    have led : a.leader (a.term n) ≠ none := by rw [current, rel.leader]; simp
    -- what the snapshot contains is committed, hence in the ledger
    have common {i : Nat} (le : i ≤ p.raft.rlog.snapIndex) :=
      current ▸ committed_common sound h led (le.trans (h.snap_le.trans h.stored_le))
    split
    next covered =>
      have same := (common (i := req.prevLogIndex + req.entries.length) (by omega)).1
      obtain ⟨moves, acked⟩ := moves_ack sound current rel.len (same ▸ List.take_prefix _ _)
      refine Sim.silent sound h.durable moves fun r resp result => ?_
      cases result
      exact ⟨node_ack sound moves h, fun _ => acked⟩
    · refine checkEntries_sim sound h rel term state (Nat.le_refl _) (by omega)
        (Or.inr (common (Nat.le_refl _)).1) ?_
      rw [rel.entries, List.drop_drop, ← rel.entries]
      congr 1
      omega
  next start =>
    exact checkEntries_sim sound h rel term state (Nat.le_of_not_lt start) (by omega) (Or.inl rfl)
      rel.entries

theorem handleAppendEntries_sim (sound : Sound cfg a) (h : Node M a n p) (rel : AppendRel a req) :
    Sim cfg M n a p.storage (p.raft.handleAppendEntries req).1
      (Appended M n p req (p.raft.handleAppendEntries req).2) := by
  simp only [Raft.handleAppendEntries]
  split
  · exact appended_refused sound h rfl
  next current =>
    refine (followLocked_sim sound h (Nat.le_of_not_lt current) req.leaderId).bind ?_
    rintro a' s' moves ⟨node, term, state⟩
    exact appendEntriesLocked_sim (moves.sound sound) node
      (appendRel_grows (moves.grows sound) rel) term state

end Append

section Install

variable {req : InstallSnapshotRequest ID}

/-- A node that has taken over the snapshot of `req` and goes on with the log `rlog`. -/
def Installed (M : StateMachine σ) (n : ID) (p : Process ID σ) (req : InstallSnapshotRequest ID)
    (rlog : RaftLog) (a a' : Abs ID) (s : MemStorage ID) : Prop :=
  Node M a' n
    { p with
      raft := { p.raft with rlog, commitIndex := req.lastIncludedIndex, pendingSnapshot := some req }
      storage := s } ∧
    a'.term n = req.term ∧ a'.ledger = a.ledger ∧
    (a.ledger req.term).take req.lastIncludedIndex <+: a'.log n

/-- A snapshot inside our log: the log stays, its beginning becomes the snapshot. -/
theorem keepSuffix_sim (sound : Sound cfg a) (h : Node M a n p) (rel : InstallRel M a req)
    (current : a.term n = req.term) (state : p.raft.state = .follower)
    (later : p.raft.commitIndex < req.lastIncludedIndex)
    (inside : req.lastIncludedIndex ≤ (a.log n).length)
    (term : req.lastIncludedTerm = termAt Entry.term (a.log n) req.lastIncludedIndex)
    (common : (a.log n).take req.lastIncludedIndex =
      (a.ledger req.term).take req.lastIncludedIndex) :
    Sim cfg M n a p.storage
      [.snapshot ⟨req.lastIncludedIndex, req.lastIncludedTerm⟩ req.data false]
      (Installed M n p req (p.raft.rlog.compactTo req.lastIncludedIndex req.lastIncludedTerm) a) := by
  refine Sim.single sound h.durable fun s' saved => ?_
  obtain ⟨log, -, eq⟩ := saveSnapshot_keeps req.data h.durable.log inside
    (snapshot_new (h.stored_le.trans_lt later))
  rw [← term] at log eq
  obtain rfl := (Option.some.inj saved).symm.trans eq
  rw [eq] at log
  have durable := durable_snapshot h.durable.term log
    (by rw [common, current]; exact rel.committed) (common ▸ rel.covers)
  refine ⟨a, (Moves.refl n sound).plain (by simp), durable, ?_, current, rfl,
    common ▸ List.take_prefix _ _⟩
  refine node_install h (Consensus.grows_refl n a) durable rfl rfl ?_ ?_ rfl later
    (common ▸ rel.covers) state
  · rw [term]
    exact holds_compact h.log inside
  · rw [compact_snapIndex]
    exact Nat.max_eq_right (h.snap_le.trans (h.stored_le.trans later.le))

/-- A snapshot that our log does not lead up to replaces it. -/
theorem discardLog_sim (sound : Sound cfg a) (h : Node M a n p) (rel : InstallRel M a req)
    (current : a.term n = req.term) (state : p.raft.state = .follower)
    (later : p.raft.commitIndex < req.lastIncludedIndex)
    (differs : ¬ (a.ledger req.term).take req.lastIncludedIndex <+: a.log n) :
    Sim cfg M n a p.storage
      [.snapshot ⟨req.lastIncludedIndex, req.lastIncludedTerm⟩ req.data true]
      (Installed M n p req (RaftLog.reset req.lastIncludedIndex req.lastIncludedTerm) a) := by
  refine Sim.single sound h.durable fun s' saved => ?_
  have led : a.leader (a.term n) ≠ none := by rw [current, rel.leader]; simp
  have moves : Moves cfg n
      [.snapshot ⟨req.lastIncludedIndex, req.lastIncludedTerm⟩ req.data true] a
      (a.accept n req.lastIncludedIndex) := moves_accept sound led (by simp)
  have grows := moves.grows sound
  have adopted : (a.accept n req.lastIncludedIndex).log n =
      (a.ledger req.term).take req.lastIncludedIndex := by
    simp [Consensus.State.accept, current, Consensus.adopt_of_conflict differs]
  have size : ((a.ledger req.term).take req.lastIncludedIndex).length = req.lastIncludedIndex := by
    rw [List.length_take, Nat.min_eq_left rel.len]
  have whole : ((a.accept n req.lastIncludedIndex).log n).take req.lastIncludedIndex =
      (a.ledger req.term).take req.lastIncludedIndex := by
    rw [adopted, List.take_take, Nat.min_self]
  have last : Consensus.lastTerm Entry.term ((a.ledger req.term).take req.lastIncludedIndex) =
      req.lastIncludedTerm := by
    rw [Consensus.lastTerm, size, Consensus.termAt_take (Nat.le_refl _), rel.lastTerm]
  obtain ⟨log, eq⟩ := saveSnapshot_discards ((a.ledger req.term).take req.lastIncludedIndex)
    (s := p.storage) req.data (by rw [size]; exact h.stored_le.trans_lt later)
  have reset := holds_reset (L := (a.ledger req.term).take req.lastIncludedIndex)
  rw [size, last] at log eq reset
  obtain rfl := (Option.some.inj saved).symm.trans eq
  rw [eq] at log
  rw [← adopted] at log reset
  have durable := durable_snapshot (a := a.accept n req.lastIncludedIndex) h.durable.term log
    (by rw [whole, ← current] ; exact Consensus.committedBy_grows grows (current ▸ rel.committed))
    (whole ▸ rel.covers)
  refine ⟨_, moves, durable, ?_, current, rfl, adopted ▸ List.prefix_rfl⟩
  refine node_install h grows durable rfl ?_ reset rfl rfl later (whole ▸ rel.covers) state
  -- what is committed is in the ledger, so it survives
  rw [adopted, List.take_take, Nat.min_eq_left later.le, (committed_common sound h led le_rfl).1,
    current]

theorem installSnapshotLocked_sim (sound : Sound cfg a) (h : Node M a n p)
    (rel : InstallRel M a req) (term : p.raft.term = req.term)
    (state : p.raft.state = .follower) :
    Sim cfg M n a p.storage (p.raft.installSnapshotLocked req).2 fun a' s' =>
      Node M a' n { p with raft := (p.raft.installSnapshotLocked req).1, storage := s' } ∧
        req.lastIncludedIndex ≤ a'.acked n req.term := by
  have current : a.term n = req.term := h.term.symm.trans term
  have led : a.leader (a.term n) ≠ none := by rw [current, rel.leader]; simp
  simp only [Raft.installSnapshotLocked]
  split
  next known =>
    have same := current ▸ (committed_common sound h led known).1
    obtain ⟨moves, acked⟩ := moves_ack sound current rel.len (same ▸ List.take_prefix _ _)
    exact Sim.silent sound h.durable moves ⟨node_ack sound moves h, acked⟩
  next later =>
    have later := Nat.lt_of_not_le later
    have installed {rlog : RaftLog} {a' : Abs ID} {s' : MemStorage ID} (sound' : Sound cfg a')
        (post : Installed M n p req rlog a a' s') :
        ∃ a'', Moves cfg n [] a' a'' ∧ Node M a'' n
          { p with
            raft :=
              { p.raft with
                rlog, commitIndex := req.lastIncludedIndex, pendingSnapshot := some req }
            storage := s' } ∧ req.lastIncludedIndex ≤ a''.acked n req.term := by
      obtain ⟨node, current', ledger, pre⟩ := post
      rw [← ledger] at pre
      obtain ⟨moves, acked⟩ := moves_ack sound' current' (ledger ▸ rel.len) pre
      exact ⟨_, moves, node_ack sound' moves node, acked⟩
    by_cases keep : p.raft.rlog.term req.lastIncludedIndex = some req.lastIncludedTerm
    · simp only [keep, decide_true, if_true, Bool.not_true]
      obtain ⟨-, inside, same⟩ := term_holds h.log keep
      have common := ledger_agree sound n req.term _ inside rel.len (same.symm.trans rel.lastTerm)
      exact (keepSuffix_sim sound h rel current state later inside same common).andThen
        fun a' s' moves post => installed (moves.sound sound) post
    · simp only [keep, decide_false, Bool.false_eq_true, if_false, Bool.not_false]
      refine (discardLog_sim sound h rel current state later fun pre => keep ?_).andThen
        fun a' s' moves post => installed (moves.sound sound) post
      have size := pre.length_le
      rw [List.length_take, Nat.min_eq_left rel.len] at size
      have same : termAt Entry.term ((a.ledger req.term).take req.lastIncludedIndex)
          req.lastIncludedIndex = termAt Entry.term (a.log n) req.lastIncludedIndex :=
        Consensus.termAt_eq_of_pre pre (by rw [List.length_take, Nat.min_eq_left rel.len])
      rw [holds_term_some h.log (h.snap_le.trans (h.stored_le.trans later.le)) size, ← same,
        Consensus.termAt_take (Nat.le_refl _), rel.lastTerm]

theorem handleInstallSnapshot_sim (sound : Sound cfg a) (h : Node M a n p)
    (rel : InstallRel M a req) :
    Sim cfg M n a p.storage (p.raft.handleInstallSnapshot req).2.1 fun a' s' =>
      Node M a' n { p with raft := (p.raft.handleInstallSnapshot req).1, storage := s' } ∧
        ((p.raft.handleInstallSnapshot req).2.2.term ≤ req.term →
          req.lastIncludedIndex ≤ a'.acked n req.term) := by
  simp only [Raft.handleInstallSnapshot]
  split
  next stale =>
    exact Sim.idle sound h.durable ⟨h, fun le => absurd stale (Nat.not_lt.mpr le)⟩
  next current =>
    refine (followLocked_sim sound h (Nat.le_of_not_lt current) req.leaderId).bind ?_
    rintro a' s' moves ⟨node, term, state⟩
    exact (installSnapshotLocked_sim (moves.sound sound) node
      (installRel_grows (moves.grows sound) rel) term state).mono
      fun a'' s'' _ post => ⟨post.1, fun _ => post.2⟩

end Install

end EdgeKV
