import EdgeKV.Raft.Replicating

/-!
A leader that reaches a majority answers what it is asked. Its applier finishes what it has in hand
and waits; the proposals of the channel are appended; the log is replicated and committed; and what
is then applied is answered. Only the state machine can get in the way.
-/
namespace EdgeKV

variable {ID σ : Type}

section Answering

theorem lookup_filter_ne {β : Type} (ws : List (Nat × β)) {i j : Nat} (apart : i ≠ j) :
    (ws.filter (·.1 ≠ j)).lookup i = ws.lookup i := by
  induction ws with
  | nil => rfl
  | cons w ws ih =>
      obtain ⟨k, v⟩ := w
      by_cases taken : k = j
      · have other : (i == k) = false := by simpa [taken] using apart
        rw [List.filter_cons_of_neg (by simpa using taken), ih, List.lookup_cons, other]
      · rw [List.filter_cons_of_pos (by simpa using taken), List.lookup_cons, List.lookup_cons, ih]

/-- Answers to entries at other indexes leave a waiter waiting. -/
theorem answers_others (r : Raft ID) (results : List (Entry × Bytes)) {i : Nat}
    (others : ∀ x ∈ results, x.1.index ≠ i) :
    (results.foldl Raft.answer r).waiters.lookup i = r.waiters.lookup i ∧
      ∃ more, (results.foldl Raft.answer r).done = r.done ++ more := by
  induction results generalizing r with
  | nil => exact ⟨rfl, [], (List.append_nil _).symm⟩
  | cons x results ih =>
      obtain ⟨waits, more, done⟩ := ih (r.answer x) fun y there =>
        others y (List.mem_cons_of_mem x there)
      rw [List.foldl_cons, waits, done]
      simp only [Raft.answer]
      split
      · exact ⟨rfl, more, rfl⟩
      · exact ⟨lookup_filter_ne _ (others x (List.mem_cons_self ..)).symm, _, List.append_assoc ..⟩

/-- A batch that ends with the entry of a waiter answers it. -/
theorem finishBatch_answers (r : Raft ID) {results : List (Entry × Bytes)} {e : Entry}
    (result : Bytes) {q : Proposal} (last : Nat) (waits : r.waiters.lookup e.index = some q)
    (term : q.term = e.term) (others : ∀ x ∈ results, x.1.index ≠ e.index) :
    ∃ more, (r.finishBatch (results ++ [(e, result)]) last).done = r.done ++ more ∧
      (q, .ok result) ∈ more := by
  obtain ⟨still, more, done⟩ := answers_others r results others
  rw [waits] at still
  refine ⟨more ++ [(q, .ok result)], ?_, List.mem_append_right _ (List.mem_singleton_self _)⟩
  simp only [Raft.finishBatch, List.foldl_append, List.foldl_cons, List.foldl_nil, Raft.answer,
    still, done, term, if_true, List.append_assoc]

end Answering

variable [DecidableEq ID]

/-- What the applier leaves as it was in the locked state, and all that it leaves to other nodes. -/
structure Group.Worked (g : Group ID σ) (l : ID) (g' : Group ID σ) : Prop where
  raft : ∃ rlog lastApplied waiters done pendingSnapshot,
    g'.raft l = { g.raft l with rlog, lastApplied, waiters, done, pendingSnapshot }
  rest : ∀ q, q ≠ l → g'.raft q = g.raft q

/-- The state machine of the node is about to give up. -/
def Group.Fails (M : StateMachine σ) (l : ID) (g : Group ID σ) : Prop :=
  ∃ act, (g.procs l).MachineFails M act

omit [DecidableEq ID] in
theorem Group.Worked.trans {g g' g'' : Group ID σ} {l : ID} (h : g.Worked l g')
    (h' : g'.Worked l g'') : g.Worked l g'' := by
  obtain ⟨rlog, applied, waiters, done, pending, eq⟩ := h.raft
  obtain ⟨rlog', applied', waiters', done', pending', eq'⟩ := h'.raft
  rw [eq] at eq'
  exact ⟨⟨_, _, _, _, _, eq'⟩, fun q other => (h'.rest q other).trans (h.rest q other)⟩

section Work

variable {cfg : Config ID} {M : StateMachine σ} {T : Transport} {up : ID → Prop}
  {g : Group ID σ} {l : ID} (honours : T.HonoursContext) (member : l ∈ cfg.peers) (alive : up l)
include honours member alive

theorem can_finishRestore {snap : InstallSnapshotRequest ID}
    (stage : (g.procs l).applier = .restored snap) :
    Group.Can cfg M T up g fun g' => (g'.procs l).applier = .waiting ∧
      (∃ lastApplied, g'.raft l = { g.raft l with lastApplied }) ∧
      ∀ q, q ≠ l → g'.raft q = g.raft q := by
  refine (can_act honours alive member (.applier .finishRestore) (Process.quiet { g.procs l with
    raft := { g.raft l with lastApplied := max (g.raft l).lastApplied snap.lastIncludedIndex }
    applier := .waiting }) ?_ rfl rfl rfl).mono fun g' acted => ?_
  · simp only [Process.exec, Process.execApplier, stage]
  · exact ⟨acted.applier, ⟨_, acted.raft⟩, acted.others⟩

theorem can_restoreSnapshot {snap : InstallSnapshotRequest ID}
    (stage : (g.procs l).applier = .restoring snap) :
    Group.Can cfg M T up g fun g' => g'.Fails M l ∨ ((g'.procs l).applier = .waiting ∧
      (∃ lastApplied, g'.raft l = { g.raft l with lastApplied }) ∧
      ∀ q, q ≠ l → g'.raft q = g.raft q) := by
  cases restored : M.restore snap.data with
  | none => exact .here (Or.inl ⟨.applier .restore, snap, stage, restored⟩)
  | some machine =>
      refine (can_act honours alive member (.applier .restore) (Process.quiet { g.procs l with
        machine, applier := .restored snap }) ?_ rfl rfl rfl).andThen fun g₁ acted => ?_
      · simp only [Process.exec, Process.execApplier, stage, restored]
      · refine (can_finishRestore honours member alive acted.applier).mono ?_
        rintro g₂ ⟨waiting, ⟨applied, own⟩, others⟩
        refine Or.inr ⟨waiting, ⟨applied, ?_⟩, fun q other => ?_⟩
        · rw [own, acted.raft]
        · rw [others q other, acted.others q other]

/-- The entries that the applier has in hand are applied, and answered as one batch. -/
theorem can_finishBatch {entries : List Entry} {results : List (Entry × Bytes)}
    (stage : (g.procs l).applier = .applying entries results) :
    Group.Can cfg M T up g fun g' => g'.Fails M l ∨ ((∃ applied last,
      applied.map Prod.fst = results.map Prod.fst ++ entries ∧
      g'.raft l = (g.raft l).finishBatch applied last) ∧
      ((g'.procs l).applier = .waiting ∨ ∃ i, (g'.procs l).applier = .snapshotting i) ∧
      ∀ q, q ≠ l → g'.raft q = g.raft q) := by
  induction entries generalizing g results with
  | nil =>
      refine .assuming fun reachable => ?_
      obtain ⟨a, rel⟩ := reachable_rel honours reachable
      have staged := (rel.nodes l).working.stage
      rw [stage] at staged
      cases final : results.getLast? with
      | none =>
          rw [List.getLast?_eq_none_iff.mp final] at staged
          exact absurd staged.1 (Nat.lt_irrefl 0)
      | some last =>
          refine (can_act honours alive member (.applier .finishBatch) (Process.quiet
            { g.procs l with
              raft := (g.raft l).finishBatch results last.1.index
              applier := if ((g.raft l).finishBatch results last.1.index).needSnapshot cfg then
                .snapshotting last.1.index else .waiting }) ?_ rfl rfl rfl).mono
            fun g' acted => ?_
          · simp only [Process.exec, Process.execApplier, stage, final]
          · refine Or.inr ⟨⟨results, last.1.index, by rw [List.append_nil], acted.raft⟩, ?_,
              acted.others⟩
            rw [acted.applier]
            split
            · exact Or.inr ⟨_, rfl⟩
            · exact Or.inl rfl
  | cons e entries ih =>
      -- one entry at a time: a no-op is skipped, the rest goes to the state machine
      have next {g₁ : Group ID σ} {p : Process ID σ} {result : Bytes} (acted : g.Acted l p [] g₁)
          (raft : p.raft = g.raft l)
          (staged : p.applier = .applying entries (results ++ [(e, result)])) :
          Group.Can cfg M T up g₁ fun g' => g'.Fails M l ∨ ((∃ applied last,
            applied.map Prod.fst = results.map Prod.fst ++ e :: entries ∧
            g'.raft l = (g.raft l).finishBatch applied last) ∧
            ((g'.procs l).applier = .waiting ∨ ∃ i, (g'.procs l).applier = .snapshotting i) ∧
            ∀ q, q ≠ l → g'.raft q = g.raft q) := by
        refine (ih (acted.applier.trans staged)).mono fun g' reached => ?_
        rcases reached with failed | ⟨⟨applied, last, same, finished⟩, ends, others⟩
        · exact Or.inl failed
        · refine Or.inr ⟨⟨applied, last, ?_, ?_⟩, ends, fun q other => ?_⟩
          · rw [same, List.map_append, List.append_assoc]
            rfl
          · rw [finished, acted.raft, raft]
          · rw [others q other, acted.others q other]
      cases type : e.type with
      | noop =>
          refine (can_act honours alive member (.applier .apply) (Process.quiet { g.procs l with
            applier := .applying entries (results ++ [(e, [])]) }) ?_ rfl rfl rfl).andThen
            fun g₁ acted => next acted rfl rfl
          simp only [Process.exec, Process.execApplier, stage, type]
      | normal =>
          cases applied : M.apply (g.procs l).machine e.index e.data with
          | none => exact .here (Or.inl ⟨.applier .apply, e, entries, results, stage, applied⟩)
          | some outcome =>
              obtain ⟨machine, result⟩ := outcome
              refine (can_act honours alive member (.applier .apply) (Process.quiet { g.procs l with
                machine, applier := .applying entries (results ++ [(e, result)]) }) ?_ rfl rfl
                rfl).andThen fun g₁ acted => next acted rfl rfl
              simp only [Process.exec, Process.execApplier, stage, type, applied]

/-- The applier gives up a snapshot that it has not saved yet. -/
theorem can_skipSnapshot {i : Nat} (stage : (g.procs l).applier = .snapshotting i) :
    Group.Can cfg M T up g fun g' => (g'.procs l).applier = .waiting ∧ g'.raft = g.raft := by
  refine (can_act honours alive member (.applier (.snapshot none)) (Process.quiet { g.procs l with
    applier := .waiting }) ?_ rfl rfl rfl).mono fun g' acted => ?_
  · simp only [Process.exec, Process.execApplier, stage]
  · exact ⟨acted.applier, acted.unlocked rfl⟩

theorem can_saveNothing {i t : Nat} {data : Bytes}
    (stage : (g.procs l).applier = .saving i t data) :
    Group.Can cfg M T up g fun g' => (g'.procs l).applier = .waiting ∧ g'.raft = g.raft := by
  refine (can_act honours alive member (.applier (.saveSnapshot false false))
    { ops := [], next := some ({ g.procs l with applier := .waiting }, []) } ?_ rfl rfl rfl).mono
    fun g' acted => ?_
  · simp only [Process.exec, Process.execApplier, stage, Bool.false_eq_true, false_and, if_false]
  · exact ⟨acted.applier, acted.unlocked rfl⟩

/-- Whatever the applier is at, it comes to an end with it. -/
theorem can_idle : Group.Can cfg M T up g fun g' => g'.Fails M l ∨
    ((g'.procs l).applier = .waiting ∧ g.Worked l g') := by
  have unmoved {g' : Group ID σ} (same : g'.raft = g.raft) : g.Worked l g' :=
    ⟨⟨_, _, _, _, _, congrFun same l⟩, fun q _ => congrFun same q⟩
  cases stage : (g.procs l).applier with
  | waiting => exact .here (Or.inr ⟨stage, unmoved rfl⟩)
  | restoring snap =>
      refine (can_restoreSnapshot honours member alive stage).mono fun g' reached => ?_
      rcases reached with failed | ⟨waiting, ⟨applied, own⟩, others⟩
      · exact Or.inl failed
      · exact Or.inr ⟨waiting, ⟨_, _, _, _, _, own⟩, others⟩
  | restored snap =>
      refine (can_finishRestore honours member alive stage).mono ?_
      rintro g' ⟨waiting, ⟨applied, own⟩, others⟩
      exact Or.inr ⟨waiting, ⟨_, _, _, _, _, own⟩, others⟩
  | applying entries results =>
      refine (can_finishBatch honours member alive stage).orElse ?_
      rintro g₁ ⟨⟨applied, last, -, own⟩, ends, others⟩
      have worked : g.Worked l g₁ := by
        obtain ⟨waiters, done, eq⟩ := foldl_answer_eq (g.raft l) applied
        refine ⟨?_, others⟩
        rw [own, Raft.finishBatch, eq]
        exact ⟨_, _, _, _, _, rfl⟩
      rcases ends with waiting | ⟨i, snapshotting⟩
      · exact .here (Or.inr ⟨waiting, worked⟩)
      · refine (can_skipSnapshot honours member alive snapshotting).mono ?_
        rintro g₂ ⟨waiting, same⟩
        refine Or.inr ⟨waiting, worked.trans ⟨⟨_, _, _, _, _, congrFun same l⟩, fun q _ => ?_⟩⟩
        exact congrFun same q
  | snapshotting i =>
      refine (can_skipSnapshot honours member alive stage).mono ?_
      rintro g' ⟨waiting, same⟩
      exact Or.inr ⟨waiting, unmoved same⟩
  | captured i data =>
      cases known : (g.procs l).raft.rlog.term i with
      | none =>
          refine (can_act honours alive member (.applier .snapshotTerm) (Process.quiet
            { g.procs l with applier := .waiting }) ?_ rfl rfl rfl).mono fun g' acted =>
            Or.inr ⟨acted.applier, unmoved (acted.unlocked rfl)⟩
          simp only [Process.exec, Process.execApplier, stage, known]
      | some t =>
          refine (can_act honours alive member (.applier .snapshotTerm) (Process.quiet
            { g.procs l with applier := .saving i t data }) ?_ rfl rfl rfl).andThen
            fun g₁ acted => ?_
          · simp only [Process.exec, Process.execApplier, stage, known]
          · refine (can_saveNothing honours member alive acted.applier).mono ?_
            rintro g₂ ⟨waiting, same⟩
            exact Or.inr ⟨waiting, unmoved (same.trans (acted.unlocked rfl))⟩
  | saving i t data =>
      refine (can_saveNothing honours member alive stage).mono ?_
      rintro g' ⟨waiting, same⟩
      exact Or.inr ⟨waiting, unmoved same⟩
  | compacting i t =>
      refine (can_act honours alive member (.applier .compact) (Process.quiet { g.procs l with
        raft := { g.raft l with rlog := (g.raft l).rlog.compactTo i t }, applier := .waiting }) ?_
        rfl rfl rfl).mono fun g' acted => ?_
      · simp only [Process.exec, Process.execApplier, stage]
      · exact Or.inr ⟨acted.applier, ⟨_, _, _, _, _, acted.raft⟩, acted.others⟩

/-- The applier also takes a snapshot that has come in the meantime. -/
theorem can_settle (running : (g.raft l).stopped = false) :
    Group.Can cfg M T up g fun g' => g'.Fails M l ∨ ((g'.procs l).applier = .waiting ∧
      (g'.raft l).pendingSnapshot = none ∧ g.Worked l g') := by
  refine (can_idle honours member alive).orElse ?_
  rintro g₁ ⟨waiting, worked⟩
  cases pending : (g₁.procs l).raft.pendingSnapshot with
  | none => exact .here (Or.inr ⟨waiting, pending, worked⟩)
  | some snap =>
      have running : (g₁.procs l).raft.stopped = false := by
        obtain ⟨rlog, applied, waiters, done, snapshot, own⟩ := worked.raft
        rw [show (g₁.procs l).raft = g₁.raft l from rfl, own]
        exact running
      refine (can_act honours alive member (.applier .takeWork) (Process.quiet { g₁.procs l with
        raft := { g₁.raft l with pendingSnapshot := none }, applier := .restoring snap }) ?_ rfl
        rfl rfl).andThen fun g₂ acted => ?_
      · simp only [Process.exec, Process.execApplier, waiting, pending, running, ne_eq,
          not_true_eq_false, Bool.false_eq_true, or_self, if_false]
      · refine (can_restoreSnapshot honours member alive acted.applier).mono fun g₃ reached => ?_
        rcases reached with failed | ⟨waiting, ⟨applied, own⟩, others⟩
        · exact Or.inl failed
        · have taken := own.trans (by rw [acted.raft])
          refine Or.inr ⟨waiting, ?_, worked.trans ⟨⟨_, _, _, _, _, taken⟩, fun q other => ?_⟩⟩
          · rw [own, acted.raft]
          · rw [others q other, acted.others q other]

end Work

/-- A leader in place that takes proposals and whose applier has nothing in hand. -/
structure Ready (l : ID) (t : Nat) (voters : List ID) (g : Group ID σ) : Prop
    extends Steered l t voters g where
  free : (g.raft l).transferTarget = none
  idle : (g.procs l).applier = .waiting
  pending : (g.raft l).pendingSnapshot = none

/-- Proposal `q` has the last entry of the log, which has not been applied. -/
structure Raft.Owes (r : Raft ID) (q : Proposal) : Prop where
  waits : r.waiters.lookup r.rlog.lastIndex = some { q with term := r.term }
  own : r.rlog.term r.rlog.lastIndex = some r.term
  unapplied : r.lastApplied < r.rlog.lastIndex

section Proposing

omit [DecidableEq ID]

theorem lookup_addWaiter (ws : List (Nat × Proposal)) (i : Nat) (q : Proposal) :
    (Raft.addWaiter ws (i, q)).lookup i = some q := by
  have none : (ws.filter (·.1 ≠ i)).lookup i = none := by
    rw [List.lookup_eq_none_iff]
    intro w there
    have other : w.1 ≠ i := by simpa using (List.mem_filter.mp there).2
    simpa using other.symm
  rw [Raft.addWaiter, List.lookup_append, none, Option.none_or, List.lookup_cons, beq_self_eq_true]

/-- The last entry of a log has the term it was appended with. -/
theorem term_concat (l : RaftLog) (e : Entry) :
    RaftLog.term { l with entries := l.entries ++ [e] }
      (RaftLog.lastIndex { l with entries := l.entries ++ [e] }) = some e.term := by
  have last : RaftLog.lastIndex { l with entries := l.entries ++ [e] } =
      l.snapIndex + l.entries.length + 1 := by
    simp [RaftLog.lastIndex, Nat.add_assoc]
  simp only [RaftLog.term, last]
  rw [if_neg (by omega), if_neg (by omega)]
  have at_ : l.snapIndex + l.entries.length + 1 - l.snapIndex - 1 = l.entries.length := by omega
  simp [at_]

end Proposing

section Proposals

variable (cfg : Config ID) (self : ID) {r : Raft ID} {t : Nat}

/-- A leader that takes proposals appends one. -/
theorem appendProposals_one (leads : r.leading t) (free : r.transferTarget = none) (q : Proposal)
    (applied : r.lastApplied ≤ r.rlog.lastIndex) :
    ∃ rlog waiters commitIndex,
      (r.appendProposals cfg self [q]).2 = some { r with rlog, waiters, commitIndex } ∧
      Raft.Counted cfg self { r with rlog, waiters, commitIndex } ∧
      Raft.Owes { r with rlog, waiters, commitIndex } q := by
  have able : ¬ (r.state ≠ .leader ∨ r.transferTarget ≠ none ∨ r.stopped = true) := by
    rw [leads.1, free, leads.2.2]
    simp
  obtain ⟨rlog, appended, last, own⟩ : ∃ rlog, r.rlog.append (r.proposalEntries [q]) = some rlog ∧
      rlog.lastIndex = r.rlog.lastIndex + 1 ∧ rlog.term rlog.lastIndex = some r.term := by
    refine ⟨_, append_some fun k e there => ?_, ?_, term_concat _ _⟩
    · obtain ⟨q, -, rfl⟩ := r.proposalEntries_at there
      rfl
    · simp [RaftLog.lastIndex, Raft.proposalEntries, Nat.add_assoc]
  obtain ⟨waiters, added, waits⟩ : ∃ waiters,
      (r.batchWaiters [q]).foldl Raft.addWaiter r.waiters = waiters ∧
      waiters.lookup (r.rlog.lastIndex + 1) = some { q with term := r.term } :=
    ⟨_, rfl, lookup_addWaiter ..⟩
  have counted : (Raft.advanceCommitLocked { r with rlog, waiters } cfg self).Counted cfg self :=
    counted_advance _
  rw [Raft.advanceCommitLocked_eq] at counted
  simp only [Raft.appendProposals, if_neg able, appended, added]
  refine ⟨rlog, waiters, _, congrArg some (Raft.advanceCommitLocked_eq ..), counted, ?_, own, ?_⟩
  · exact last ▸ waits
  · exact last ▸ Nat.lt_succ_of_le applied

end Proposals

section Service

variable {cfg : Config ID} {M : StateMachine σ} {T : Transport} {up : ID → Prop}
  {g : Group ID σ} {l : ID} {t : Nat} {voters : List ID} (honours : T.HonoursContext)
  (member : l ∈ cfg.peers) (alive : up l) (asked : voters ⊆ cfg.others l)
  (alive' : ∀ v ∈ voters, up v)
include honours member alive asked

/-- The first proposal of the channel is appended. -/
theorem can_propose (h : Ready l t voters g) {q : Proposal} {rest : List Proposal}
    (queue : (g.procs l).proposeCh = q :: rest) :
    Group.Can cfg M T up g fun g' => Ready l t voters g' ∧ (g'.raft l).Counted cfg l ∧
      (g'.raft l).Owes q ∧ (g'.raft l).done = (g.raft l).done ∧ (g'.procs l).proposeCh = rest := by
  have apart : ∀ v ∈ voters, v ≠ l := fun v hv => by simpa using (List.mem_filter.mp (asked hv)).2
  refine .assuming fun reachable => ?_
  obtain ⟨a, rel⟩ := reachable_rel honours reachable
  have leader : Node M a l (g.procs l) := rel.nodes l
  have applied : (g.raft l).lastApplied ≤ (g.raft l).rlog.lastIndex := by
    rw [holds_lastIndex leader.log]
    exact leader.working.applied_le.trans leader.commit_le
  obtain ⟨rlog, waiters, commitIndex, done, counted, owes⟩ :=
    appendProposals_one cfg l h.leads h.free q applied
  refine (can_act honours alive member (.client (.appendProposals 1))
    (Process.tryLock { g.procs l with proposeCh := rest }
      ((g.raft l).appendProposals cfg l [q])) ?_ (by rw [Process.tryLock, done]; rfl) rfl
      rfl).mono fun g' acted => ?_
  · have batch : ¬ max 1 cfg.maxProposalBatch < 1 := by omega
    simp only [Process.exec, Process.execClient, queue, List.length_cons, List.take_succ_cons,
      List.take_zero, List.drop_succ_cons, List.drop_zero, batch, one_ne_zero, false_or, or_false]
    rw [if_neg (by omega)]
  · have own : g'.raft l = { g.raft l with rlog, waiters, commitIndex } := acted.raft
    obtain ⟨s, process⟩ := acted.own
    refine ⟨⟨⟨?_, fun m there => ?_, fun m there => ?_⟩, ?_, ?_, ?_⟩, ?_, ?_, ?_, ?_⟩
    · rw [own]
      exact h.leads
    · rw [acted.others m (apart m there)]
      exact h.behind m there
    · rw [own]
      exact h.tracks m there
    · rw [own]
      exact h.free
    · rw [acted.applier]
      exact h.idle
    · rw [own]
      exact h.pending
    · rw [own]
      exact counted
    · rw [own]
      exact owes
    · rw [own]
    · rw [process]

/-- All proposals before `q` are appended, and then `q`. -/
theorem can_drain (h : Ready l t voters g) {before : List Proposal} {q : Proposal}
    (queue : (g.procs l).proposeCh = before ++ [q]) :
    Group.Can cfg M T up g fun g' => Ready l t voters g' ∧ (g'.raft l).Counted cfg l ∧
      (g'.raft l).Owes q ∧ (g'.raft l).done = (g.raft l).done := by
  induction before generalizing g with
  | nil =>
      refine (can_propose honours member alive asked h queue).mono ?_
      rintro g' ⟨ready, counted, owes, done, -⟩
      exact ⟨ready, counted, owes, done⟩
  | cons q' before ih =>
      refine (can_propose honours member alive asked h queue).andThen ?_
      rintro g₁ ⟨ready, -, -, done, rest⟩
      rw [← done]
      exact ih ready rest

omit asked in
/-- What is committed is applied, and the proposal that waits for the last entry is answered. -/
theorem can_apply (running : (g.raft l).stopped = false) (idle : (g.procs l).applier = .waiting)
    (pending : (g.raft l).pendingSnapshot = none) {q : Proposal} (owes : (g.raft l).Owes q)
    (commit : (g.raft l).commitIndex = (g.raft l).rlog.lastIndex) :
    Group.Can cfg M T up g fun g' => g'.Fails M l ∨ ∃ more result,
      (g'.raft l).done = (g.raft l).done ++ more ∧
      ({ q with term := (g.raft l).term }, .ok result) ∈ more := by
  refine .assuming fun reachable => ?_
  obtain ⟨a, rel⟩ := reachable_rel honours reachable
  have leader : Node M a l (g.procs l) := rel.nodes l
  have log : Holds (a.log l) (g.raft l).rlog := leader.log
  have last := holds_lastIndex log
  have unapplied := owes.unapplied
  -- the log of the node is some entries and the one that is waited for
  obtain ⟨L, e, split⟩ : ∃ L e, a.log l = L ++ [e] := by
    refine ⟨_, _, (List.dropLast_append_getLast ?_).symm⟩
    rw [← List.length_pos_iff, ← last]
    omega
  have size : (g.raft l).rlog.lastIndex = L.length + 1 := by
    rw [last, split, List.length_append, List.length_singleton]
  have indexed : Indexed (L ++ [e]) := split ▸ log_indexed rel.sound l
  have index : e.index = L.length + 1 := indexed L.length e (by simp)
  have term : e.term = (g.raft l).term := by
    have known := (term_holds log owes.own).2.2
    rw [size, split, Consensus.termAt_concat] at known
    exact known.symm
  have above : (g.raft l).rlog.snapIndex ≤ (g.raft l).lastApplied :=
    waiting_slice leader idle pending
  have cut : (g.raft l).rlog.slice ((g.raft l).lastApplied + 1) (g.raft l).commitIndex =
      some (L.drop (g.raft l).lastApplied ++ [e]) := by
    rw [holds_slice log (Nat.lt_succ_of_le above) (by rw [commit, last]), commit, size, split,
      Nat.succ_sub_one, List.drop_append_of_le_length (by omega), List.take_of_length_le]
    rw [List.length_append, List.length_drop, List.length_singleton]
    omega
  refine (can_act honours alive member (.applier .takeWork) (Process.quiet { g.procs l with
    applier := .applying (L.drop (g.raft l).lastApplied ++ [e]) [] }) ?_ rfl rfl rfl).andThen
    fun g₁ acted => ?_
  · have behind : ¬ (g.raft l).commitIndex ≤ (g.raft l).lastApplied := by omega
    simp only [Process.exec, Process.execApplier, idle, ne_eq, not_true_eq_false, false_or]
    rw [show (g.procs l).raft = g.raft l from rfl, running, pending]
    simp only [Bool.false_eq_true, if_false, behind, cut]
  refine (can_finishBatch honours member alive acted.applier).mono fun g₂ reached => ?_
  rcases reached with failed | ⟨⟨applied, top, same, finished⟩, -, -⟩
  · exact Or.inl failed
  · rw [List.map_nil, List.nil_append] at same
    obtain ⟨results, final, rfl, front, back⟩ := List.map_eq_append_iff.mp same
    obtain ⟨⟨e', result⟩, rfl, entry⟩ := List.map_eq_singleton_iff.mp back
    obtain rfl : e' = e := entry
    rw [acted.unlocked rfl] at finished
    have waits := owes.waits
    rw [size, ← index] at waits
    have others : ∀ x ∈ results, x.1.index ≠ e'.index := by
      intro x there
      have entry : x.1 ∈ L.drop (g.raft l).lastApplied := front ▸ List.mem_map_of_mem there
      obtain ⟨k, at_⟩ := List.getElem?_of_mem (List.mem_of_mem_drop entry)
      obtain ⟨lt, -⟩ := List.getElem?_eq_some_iff.mp at_
      have own := indexed k x.1 (by rw [List.getElem?_append_left lt, at_])
      omega
    obtain ⟨more, done, told⟩ :=
      finishBatch_answers (g.raft l) result top waits term.symm others
    exact Or.inr ⟨more, result, by rw [finished, done], told⟩

include alive'

/-- A leader with a majority answers a proposal that it has got. -/
theorem can_serve (batch : 0 < cfg.maxAppendEntries) (distinct : voters.Nodup)
    (enough : cfg.quorum ≤ 1 + voters.length) (h : Ready l t voters g) {before : List Proposal}
    {q : Proposal} (queue : (g.procs l).proposeCh = before ++ [q]) :
    Group.Can cfg M T up g fun g' => g'.Fails M l ∨ ∃ more result,
      (g'.raft l).done = (g.raft l).done ++ more ∧
      ({ q with term := t }, .ok result) ∈ more := by
  refine (can_drain honours member alive asked h queue).andThen ?_
  rintro g₁ ⟨ready, counted, owes, done⟩
  have own := owes.own
  rw [ready.leads.2.1] at own
  refine (can_commit honours member alive asked alive' batch distinct enough ready.toSteered counted
    own).andThen ?_
  rintro g₂ ⟨held, commit⟩
  obtain ⟨next, matched, acked, committed, same⟩ := held.raft
  have same : g₂.raft l = { g₁.raft l with
    nextIndex := next, matchIndex := matched, ackedSendTime := acked, commitIndex := committed } :=
    same
  refine (can_apply honours member alive ?_ (held.applier.trans ready.idle) ?_ (q := q) ?_ ?_).mono
    fun g₃ reached => ?_
  · rw [same]
    exact ready.leads.2.2
  · rw [same]
    exact ready.pending
  · rw [same]
    exact ⟨owes.waits, owes.own, owes.unapplied⟩
  · rw [commit, same]
  · rw [same] at reached
    rw [← done, ← ready.leads.2.1]
    exact reached

end Service

end EdgeKV
