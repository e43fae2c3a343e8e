import EdgeKV.Raft.Simulation.Follower

/-!
The applier: it never moves the protocol, only the state machine along the log of
its node. Each of its stages leads to the next one with the machine in place.
-/
namespace EdgeKV

open Consensus (termAt CommittedBy Grows majority)

variable {ID σ : Type} {M : StateMachine σ} {a : Abs ID} {n : ID} {L : List Entry}
  {p p' : Process ID σ}

/-- A node whose applier went on, with the rest of it as it was. -/
theorem node_working (h : Node M a n p) (storage : p'.storage = p.storage)
    (calls : p'.calls = p.calls) (term : p'.raft.term = p.raft.term)
    (state : p'.raft.state = p.raft.state) (rlog : p'.raft.rlog = p.raft.rlog)
    (commit : p'.raft.commitIndex = p.raft.commitIndex)
    (matched : p'.raft.matchIndex = p.raft.matchIndex)
    (next : p'.raft.nextIndex = p.raft.nextIndex)
    (noop : p'.raft.noopIndex = p.raft.noopIndex) (working : Working M (a.log n) p') :
    Node M a n p' where
  durable := storage ▸ h.durable
  term := term ▸ h.term
  log := rlog ▸ h.log
  snap_le := by rw [rlog, storage]; exact h.snap_le
  stored_le := by rw [commit, storage]; exact h.stored_le
  commit_le := commit ▸ h.commit_le
  committed := commit ▸ h.committed
  leads := fun leading => by
    have leads := h.leads (state ▸ leading)
    refine ⟨term ▸ leads.leader, ?_, ?_, ?_, next ▸ leads.next⟩
    · rw [term, commit]; exact leads.commit
    · rw [term, matched]; exact leads.matched
    · rw [term, noop]; exact leads.noop
  stands := fun standing => by
    have stands := h.stands (state ▸ standing)
    exact ⟨term ▸ stands.stood, term ▸ stands.vacant⟩
  calls := calls ▸ h.calls
  working := working

section Stages

variable (h : Working M L p)
include h

theorem takeSnapshot_working {snap : InstallSnapshotRequest ID} (waiting : p.applier = .waiting)
    (pending : p.raft.pendingSnapshot = some snap) :
    Working M L
      { p with raft := { p.raft with pendingSnapshot := none }, applier := .restoring snap } := by
  obtain ⟨later, inside, covers⟩ := h.pending pending
  have reach := h.reach
  have reflects := h.reflects
  simp only [Process.horizon, waiting] at later
  simp only [Process.position, waiting] at reflects
  simp only [Process.reach, Process.horizon, waiting, pending, Option.map_some,
    Option.getD_some] at reach
  exact
    { applied_le := h.applied_le
      horizon_le := inside
      reflects := reflects
      stage := ⟨later, covers⟩
      pending := fun none => by cases none
      reach := reach.trans (by simp [Process.reach, Process.horizon]; omega) }

theorem takeEntries_working {entries : List Entry} (held : Holds L p.raft.rlog)
    (inside : p.raft.commitIndex ≤ L.length) (waiting : p.applier = .waiting)
    (pending : p.raft.pendingSnapshot = none) (behind : p.raft.lastApplied < p.raft.commitIndex)
    (cut : p.raft.rlog.slice (p.raft.lastApplied + 1) p.raft.commitIndex = some entries) :
    Working M L { p with applier := .applying entries [] } := by
  have reach := h.reach
  have reflects := h.reflects
  simp only [Process.position, waiting] at reflects
  simp only [Process.reach, Process.horizon, waiting, pending, Option.map_none, Option.getD_none,
    Nat.max_zero] at reach
  rw [holds_slice held (Nat.lt_succ_of_le reach) inside] at cut
  obtain rfl := Option.some.inj cut
  have size : ((L.drop (p.raft.lastApplied + 1 - 1)).take
      (p.raft.commitIndex + 1 - (p.raft.lastApplied + 1))).length =
      p.raft.commitIndex - p.raft.lastApplied := by
    rw [List.length_take, List.length_drop]
    omega
  have horizon : p.raft.lastApplied + 0 + (p.raft.commitIndex - p.raft.lastApplied) =
      p.raft.commitIndex := by omega
  refine
    { applied_le := h.applied_le
      horizon_le := ?_
      reflects := reflects
      stage := ⟨?_, ?_⟩
      pending := fun some => by rw [pending] at some; cases some
      reach := ?_ }
  · simp only [Process.horizon, List.length_nil, size, horizon, Nat.le_refl]
  · rw [size]
    omega
  · simp only [Process.horizon, List.length_nil, size, horizon, List.map_nil, List.nil_append,
      List.drop_take]
    congr 1
    omega
  · simp only [Process.reach, Process.horizon, List.length_nil, size, horizon]
    omega

/-- A stage that works towards the same index. -/
theorem working_stage (raft : p'.raft.commitIndex = p.raft.commitIndex)
    (pending : p'.raft.pendingSnapshot = p.raft.pendingSnapshot)
    (rlog : p'.raft.rlog = p.raft.rlog) (horizon : p'.horizon = p.horizon)
    (applied : p'.raft.lastApplied ≤ p.horizon)
    (reflects : Reflects M p'.machine (L.take p'.position)) (stage : Stage M L p' p'.applier) :
    Working M L p' where
  applied_le := raft ▸ applied.trans h.horizon_le
  horizon_le := by rw [raft, horizon]; exact h.horizon_le
  reflects := reflects
  stage := stage
  pending := by rw [raft, horizon, pending]; exact h.pending
  reach := by rw [Process.reach, rlog, horizon, pending]; exact h.reach

theorem restore_working {snap : InstallSnapshotRequest ID} {machine : σ}
    (stage : p.applier = .restoring snap) (restored : M.restore snap.data = some machine) :
    Working M L { p with machine, applier := .restored snap } := by
  have staged := h.stage
  rw [stage] at staged
  refine working_stage h rfl rfl rfl ?_ ?_ (covers_restore M staged.2 restored) staged.1
  · simp only [Process.horizon, stage]
  · simp only [Process.horizon, stage]
    exact staged.1.le

theorem finishRestore_working {snap : InstallSnapshotRequest ID}
    (stage : p.applier = .restored snap) :
    Working M L
      { p with
        raft := { p.raft with lastApplied := max p.raft.lastApplied snap.lastIncludedIndex }
        applier := .waiting } := by
  have staged := h.stage
  have reflects := h.reflects
  rw [stage] at staged
  simp only [Process.position, stage] at reflects
  have later : max p.raft.lastApplied snap.lastIncludedIndex = snap.lastIncludedIndex :=
    Nat.max_eq_right (Nat.le_of_lt staged)
  rw [later]
  refine working_stage h rfl rfl rfl ?_ ?_ reflects trivial
  · simp only [Process.horizon, stage]
  · simp only [Process.horizon, stage, Nat.le_refl]

/-- The entry that is passed next is the one after the machine's position. -/
theorem applying_next {e : Entry} {entries : List Entry} {results : List (Entry × Bytes)}
    (stage : p.applier = .applying (e :: entries) results) :
    L[p.position]? = some e := by
  have staged := h.stage
  rw [stage] at staged
  obtain ⟨-, staged⟩ := staged
  have horizon : p.horizon = p.raft.lastApplied + results.length + (entries.length + 1) := by
    simp only [Process.horizon, stage, List.length_cons]
  have there := congrArg (·[results.length]?) staged
  simp only [List.getElem?_drop, horizon] at there
  rw [List.getElem?_take_of_lt (by omega), List.getElem?_append_right (by simp)] at there
  simpa only [Process.position, stage, List.length_map, Nat.sub_self, List.getElem?_cons_zero]
    using there.symm

/-- Passing one entry: the machine has taken it in, or it was a no-op. -/
theorem pass_working {e : Entry} {entries : List Entry} {results : List (Entry × Bytes)}
    {machine : σ} {result : Bytes} (stage : p.applier = .applying (e :: entries) results)
    (passed : ∀ P, Reflects M p.machine P → Reflects M machine (P ++ [e])) :
    Working M L { p with machine, applier := .applying entries (results ++ [(e, result)]) } := by
  have staged := h.stage
  have reflects := h.reflects
  have there := applying_next h stage
  rw [stage] at staged
  simp only [Process.position, stage] at reflects there
  have horizon : p.horizon = p.raft.lastApplied + (results ++ [(e, result)]).length +
      entries.length := by
    simp only [Process.horizon, stage, List.length_cons, List.length_append, List.length_nil]
    omega
  have grown : L.take (p.raft.lastApplied + (results ++ [(e, result)]).length) =
      L.take (p.raft.lastApplied + results.length) ++ [e] := by
    rw [List.length_append, List.length_singleton, ← Nat.add_assoc, List.take_add_one, there]
    rfl
  refine working_stage h rfl rfl rfl horizon.symm
    (by rw [horizon]; exact Nat.le_add_right_of_le (Nat.le_add_right _ _))
    (grown ▸ passed _ reflects) ⟨?_, ?_⟩
  · rw [List.length_append, List.length_singleton]
    omega
  · have rest := staged.2
    rw [horizon] at rest
    simpa [Process.horizon] using rest

/-- The end of a batch: the machine is at the index of its last entry. -/
theorem finishBatch_working (indexed : Indexed L) {results : List (Entry × Bytes)}
    {last : Entry × Bytes} {r : Raft ID} {applier : Applier ID}
    (stage : p.applier = .applying [] results)
    (final : results.getLast? = some last) (commit : r.commitIndex = p.raft.commitIndex)
    (pending : r.pendingSnapshot = p.raft.pendingSnapshot) (rlog : r.rlog = p.raft.rlog)
    (applied : r.lastApplied = max p.raft.lastApplied last.1.index)
    (next : applier = .snapshotting last.1.index ∨ applier = .waiting) :
    Working M L { p with raft := r, applier } := by
  have staged := h.stage
  have bound := h.horizon_le
  have reflects := h.reflects
  rw [stage] at staged
  obtain ⟨-, staged⟩ := staged
  have horizon : p.horizon = p.raft.lastApplied + results.length := by
    simp only [Process.horizon, stage, List.length_nil, Nat.add_zero]
  have index : last.1.index = p.horizon := by
    obtain ⟨k, size⟩ : ∃ k, results.length = k + 1 := by
      cases results with
      | nil => cases final
      | cons x xs => exact ⟨xs.length, rfl⟩
    have there := congrArg (·[k]?) staged
    simp only [List.append_nil, List.getElem?_map, List.getElem?_drop, horizon] at there
    rw [List.getLast?_eq_getElem?, size, Nat.add_sub_cancel] at final
    rw [final, List.getElem?_take_of_lt (by omega)] at there
    have := indexed _ _ there.symm
    omega
  have reached : r.lastApplied = p.horizon := by
    rw [applied, index, horizon]
    omega
  simp only [Process.position, stage, ← horizon, ← reached] at reflects
  rcases next with rfl | rfl
  · exact working_stage h commit pending rlog reached reached.le reflects
      (index.trans reached.symm)
  · exact working_stage h commit pending rlog reached reached.le reflects trivial

/-- Giving up a snapshot. -/
theorem idle_working (rest : p.horizon = p.raft.lastApplied)
    (here : p.position = p.raft.lastApplied) : Working M L { p with applier := .waiting } := by
  have reflects := h.reflects
  rw [here] at reflects
  exact working_stage h rfl rfl rfl rest.symm rest.ge reflects trivial

theorem capture_working {index : Nat} {data : Bytes} (stage : p.applier = .snapshotting index)
    (genuine : M.snapshot p.machine data) :
    Working M L { p with applier := .captured index data } := by
  have staged := h.stage
  have reflects := h.reflects
  rw [stage] at staged
  have horizon : p.horizon = p.raft.lastApplied := by simp only [Process.horizon, stage]
  simp only [Process.position, stage] at reflects
  refine working_stage h rfl rfl rfl horizon.symm horizon.ge reflects ⟨staged, p.machine, ?_, genuine⟩
  rw [show index = p.raft.lastApplied from staged]
  exact reflects

theorem snapshotTerm_working {index term : Nat} {data : Bytes} (held : Holds L p.raft.rlog)
    (stage : p.applier = .captured index data) (found : p.raft.rlog.term index = some term) :
    Working M L { p with applier := .saving index term data } := by
  have staged := h.stage
  have reflects := h.reflects
  rw [stage] at staged
  have horizon : p.horizon = p.raft.lastApplied := by simp only [Process.horizon, stage]
  simp only [Process.position, stage] at reflects
  exact working_stage h rfl rfl rfl horizon.symm horizon.ge reflects
    ⟨staged.1, staged.2, (term_holds held found).2.2⟩

end Stages

theorem compact_node (h : Node M a n p) {index term : Nat}
    (stage : p.applier = .compacting index term) :
    Node M a n
      { p with
        raft := { p.raft with rlog := p.raft.rlog.compactTo index term }
        applier := .waiting } := by
  have staged := h.working.stage
  have reflects := h.working.reflects
  have pending {x : InstallSnapshotRequest ID} := @Working.pending _ _ _ _ _ h.working x
  have reach := h.working.reach
  rw [stage] at staged
  obtain ⟨applied, stored, rfl⟩ := staged
  have horizon : p.horizon = p.raft.lastApplied := by simp only [Process.horizon, stage]
  simp only [Process.position, stage] at reflects
  rw [Process.reach, horizon] at reach
  rw [horizon] at pending
  have le : index ≤ p.raft.commitIndex := applied.trans_le h.working.applied_le
  have held := holds_compact h.log (le.trans h.commit_le)
  refine
    { durable := h.durable, term := h.term, log := held, snap_le := ?_, stored_le := h.stored_le
      commit_le := h.commit_le, committed := h.committed
      leads := fun state => ⟨(h.leads state).leader, (h.leads state).commit,
        (h.leads state).matched, (h.leads state).noop, (h.leads state).next⟩
      stands := fun state => ⟨(h.stands state).stood, (h.stands state).vacant⟩
      calls := h.calls
      working :=
        { applied_le := h.working.applied_le
          horizon_le := h.working.applied_le
          reflects := reflects
          stage := trivial
          pending := pending
          reach := ?_ } }
  · simp only [compact_snapIndex]
    exact Nat.max_le.mpr ⟨h.snap_le, stored⟩
  · simp only [compact_snapIndex, Process.reach, Process.horizon]
    exact Nat.max_le.mpr ⟨reach, applied.trans_le (Nat.le_max_left _ _)⟩

variable [DecidableEq ID] {cfg : Config ID}

/-- A snapshot that the applier saves lies inside the committed log; one that is
overtaken by an installed snapshot is skipped by the storage. -/
theorem saveSnapshot_sim (sound : Sound cfg a) (h : Node M a n p) {index term : Nat} {data : Bytes}
    (stage : p.applier = .saving index term data) {applier : Applier ID}
    (next : applier = .compacting index term ∨ applier = .waiting) :
    Sim cfg M n a p.storage [.snapshot ⟨index, term⟩ data false] fun a' s' =>
      Node M a' n { p with storage := s', applier } := by
  have staged := h.working.stage
  have reflects := h.working.reflects
  rw [stage] at staged
  obtain ⟨applied, covers, rfl⟩ := staged
  have horizon : p.horizon = p.raft.lastApplied := by simp only [Process.horizon, stage]
  simp only [Process.position, stage] at reflects
  have le : index ≤ p.raft.commitIndex := applied.trans_le h.working.applied_le
  have inside := le.trans h.commit_le
  -- either way the storage ends up with a snapshot at `index` or later
  have saved : ∃ s', p.storage.saveSnapshot ⟨index, termAt Entry.term (a.log n) index⟩ data false =
      s' ∧ Durable M a n s' ∧ index ≤ s'.snapIndex ∧ p.storage.snapIndex ≤ s'.snapIndex ∧
        s'.snapIndex ≤ p.raft.commitIndex := by
    cases known : p.storage.snapMeta.any (index ≤ ·.lastIncludedIndex) with
    | true =>
        refine ⟨p.storage, ?_, h.durable, snapshot_known known, le_rfl, h.stored_le⟩
        rw [MemStorage.saveSnapshot, if_pos known]
    | false =>
        obtain ⟨log, above, eq⟩ := saveSnapshot_keeps data h.durable.log inside known
        rw [eq] at log
        refine ⟨_, eq, durable_snapshot h.durable.term log ?_ covers, le_rfl, above, le⟩
        have := Consensus.committedBy_take h.committed index
        rwa [List.take_take, Nat.min_eq_left le] at this
  obtain ⟨s', eq, durable, reached, later, bound⟩ := saved
  refine Sim.single sound h.durable fun s'' stored => ?_
  obtain rfl : s' = s'' := eq.symm.trans (Option.some.inj stored)
  refine ⟨a, (Moves.refl n sound).plain (by simp), durable, ?_⟩
  refine
    { durable := durable, term := h.term, log := h.log, snap_le := h.snap_le.trans later
      stored_le := bound, commit_le := h.commit_le, committed := h.committed, leads := h.leads
      stands := h.stands, calls := h.calls, working := ?_ }
  rcases next with rfl | rfl
  · exact working_stage h.working rfl rfl rfl horizon.symm horizon.ge reflects
      ⟨applied, reached, rfl⟩
  · exact working_stage h.working rfl rfl rfl horizon.symm horizon.ge reflects trivial

end EdgeKV
