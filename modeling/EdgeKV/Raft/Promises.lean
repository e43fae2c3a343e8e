import EdgeKV.Raft.Simulation
import EdgeKV.Raft.Bearing

/-!
What `Propose` promises. A proposal that waits is in the ledger of the term it was
appended in, at the index it waits for; one that was acknowledged is committed, and
its result is what the state machine returned at that point of the log.
-/
namespace EdgeKV

open Consensus (termAt CommittedBy Grows majority)

variable {ID σ : Type} {M : StateMachine σ} {a a' : Abs ID} {n : ID} {p p' : Process ID σ}

/-- The log entry of a proposal. -/
def Proposal.entry (q : Proposal) (index : Nat) : Entry :=
  { index, term := q.term, type := .normal, data := q.data }

/-- The machine returns `result` for `e` after the entries of `P`. -/
def Produces (M : StateMachine σ) (P : List Entry) (e : Entry) (result : Bytes) : Prop :=
  ∃ s s', Reflects M s P ∧ M.apply s e.index e.data = some (s', result)

/-- The proposal is committed by a leader of a term up to `t` at an index up to `i`, with
this result. -/
def Acknowledged (M : StateMachine σ) (a : Abs ID) (t i : Nat) (q : Proposal) (result : Bytes) :
    Prop :=
  ∃ P, P.length < i ∧ CommittedBy a t (P ++ [q.entry (P.length + 1)]) ∧
    Produces M P (q.entry (P.length + 1)) result

structure Promises (M : StateMachine σ) (a : Abs ID) (n : ID) (p : Process ID σ) : Prop where
  waiters : ∀ i q, (i, q) ∈ p.raft.waiters →
    0 < i ∧ (a.ledger q.term)[i - 1]? = some (q.entry i)
  done : ∀ q result, (q, .ok result) ∈ p.raft.done →
    Acknowledged M a (a.term n) p.raft.lastApplied q result
  results : ∀ entries results, p.applier = .applying entries results →
    ∀ k x, results[k]? = some x → x.1.type = .normal →
      Produces M ((a.log n).take (p.raft.lastApplied + k)) x.1 x.2

theorem getElem?_of_pre {L P : List Entry} (pre : L <+: P) {i : Nat} {e : Entry}
    (h : L[i]? = some e) : P[i]? = some e := by
  obtain ⟨R, rfl⟩ := pre
  rw [List.getElem?_append_left (List.getElem?_eq_some_iff.mp h).1]
  exact h

theorem acknowledged_mono {t u i j : Nat} (grows : Grows n a a') (le : t ≤ u) (applied : i ≤ j)
    {q : Proposal} {result : Bytes} (h : Acknowledged M a t i q result) :
    Acknowledged M a' u j q result := by
  obtain ⟨P, size, committed, produced⟩ := h
  exact ⟨P, size.trans_le applied,
    Consensus.committedBy_mono (Consensus.committedBy_grows grows committed) le, produced⟩

section Log

variable {cfg : Config ID}

/-- What is committed at a node never changes. -/
theorem committed_take_eq (sound' : Sound cfg a') (grows : Grows n a a') (h : Node M a n p)
    (h' : Node M a' n p') {i : Nat} (le : i ≤ p.raft.commitIndex)
    (le' : i ≤ p'.raft.commitIndex) : (a'.log n).take i = (a.log n).take i := by
  have old := Consensus.committedBy_take (Consensus.committedBy_grows grows h.committed) i
  have new := Consensus.committedBy_take h'.committed i
  rw [List.take_take, Nat.min_eq_left le] at old
  rw [List.take_take, Nat.min_eq_left le'] at new
  have size : ((a.log n).take i).length = i := by
    rw [List.length_take, Nat.min_eq_left (le.trans h.commit_le)]
  have size' : ((a'.log n).take i).length = i := by
    rw [List.length_take, Nat.min_eq_left (le'.trans h'.commit_le)]
  rcases Consensus.committed_comparable sound'.inv old new with pre | pre
  · exact (pre.eq_of_length (size.trans size'.symm)).symm
  · exact pre.eq_of_length (size'.trans size.symm)

/-- The entries that a batch has passed are those of the log. -/
theorem applying_results (h : Working M (a.log n) p) {entries : List Entry}
    {results : List (Entry × Bytes)} (stage : p.applier = .applying entries results) {k : Nat}
    {x : Entry × Bytes} (there : results[k]? = some x) :
    (a.log n)[p.raft.lastApplied + k]? = some x.1 := by
  have staged := h.stage
  rw [stage] at staged
  obtain ⟨-, staged⟩ := staged
  have inside := (List.getElem?_eq_some_iff.mp there).1
  have horizon : p.horizon = p.raft.lastApplied + results.length + entries.length := by
    simp only [Process.horizon, stage]
  have at_ := congrArg (·[k]?) staged
  simp only [List.getElem?_drop, horizon] at at_
  rw [List.getElem?_take_of_lt (by omega), List.getElem?_append_left (by simpa using inside),
    List.getElem?_map, there] at at_
  exact at_.symm

end Log

section Answers

theorem addWaiter_mem {ws new : List (Nat × Proposal)} {w : Nat × Proposal}
    (h : w ∈ new.foldl Raft.addWaiter ws) : w ∈ ws ∨ w ∈ new := by
  induction new generalizing ws with
  | nil => exact Or.inl h
  | cons x new ih =>
      rcases ih h with old | later
      · rcases List.mem_append.mp old with kept | added
        · exact Or.inl (List.mem_of_mem_filter kept)
        · exact Or.inr (List.mem_cons.mpr (Or.inl (List.mem_singleton.mp added)))
      · exact Or.inr (List.mem_cons_of_mem _ later)

/-- Where an answer comes from: a proposal that waited for an applied entry. -/
theorem answers_mem {r : Raft ID} {results : List (Entry × Bytes)} {q : Proposal} {result : Bytes}
    (h : (q, .ok result) ∈ (results.foldl Raft.answer r).done) :
    (q, .ok result) ∈ r.done ∨
      ∃ x ∈ results, (x.1.index, q) ∈ r.waiters ∧ q.term = x.1.term ∧ result = x.2 := by
  induction results generalizing r with
  | nil => exact Or.inl h
  | cons x results ih =>
      have first : ((q, .ok result) ∈ (r.answer x).done → (q, .ok result) ∈ r.done ∨
          ((x.1.index, q) ∈ r.waiters ∧ q.term = x.1.term ∧ result = x.2)) ∧
          ∀ w ∈ (r.answer x).waiters, w ∈ r.waiters := by
        simp only [Raft.answer]
        split
        · exact ⟨Or.inl, fun w hw => hw⟩
        next w found =>
          refine ⟨fun told => ?_, fun w hw => List.mem_of_mem_filter hw⟩
          rcases List.mem_append.mp told with old | new
          · exact Or.inl old
          · have eq := List.mem_singleton.mp new
            split at eq
            next same =>
              cases eq
              obtain ⟨before, after, split, -⟩ := List.lookup_eq_some_iff.mp found
              exact Or.inr ⟨by rw [split]; simp, same, rfl⟩
            · cases eq
      rcases ih h with told | ⟨y, there, waits, rest⟩
      · rcases first.1 told with old | new
        · exact Or.inl old
        · exact Or.inr ⟨x, List.mem_cons_self .., new⟩
      · exact Or.inr ⟨y, List.mem_cons_of_mem _ there, first.2 _ waits, rest⟩

theorem answers_waiters {r : Raft ID} {results : List (Entry × Bytes)} {w : Nat × Proposal}
    (h : w ∈ (results.foldl Raft.answer r).waiters) : w ∈ r.waiters := by
  induction results generalizing r with
  | nil => exact h
  | cons x results ih =>
      have first := ih h
      simp only [Raft.answer] at first
      split at first
      · exact first
      · exact List.mem_of_mem_filter first

theorem batchWaiters_mem {r : Raft ID} {batch : List Proposal} {i : Nat} {q : Proposal}
    (h : (i, q) ∈ r.batchWaiters batch) : ∃ k q₀, batch[k]? = some q₀ ∧
      i = r.rlog.lastIndex + 1 + k ∧ q = { q₀ with term := r.term } := by
  obtain ⟨k, at_⟩ := List.getElem?_of_mem h
  simp only [Raft.batchWaiters, List.getElem?_mapIdx, Option.map_eq_some_iff] at at_
  obtain ⟨q₀, there, eq⟩ := at_
  obtain ⟨rfl, rfl⟩ := Prod.mk.inj eq
  exact ⟨k, q₀, there, rfl, rfl⟩

variable [DecidableEq ID] {cfg : Config ID} {act : Action ID}

/-- Whoever waits after an action waited before, or was appended by it. -/
theorem bearing_waiters (h : Bearing cfg n M p act p') {i : Nat} {q : Proposal}
    (waits : (i, q) ∈ p'.raft.waiters) : (i, q) ∈ p.raft.waiters ∨
      ∃ count, p.raft.state = .leader ∧ p'.raft.state = .leader ∧ p'.raft.term = p.raft.term ∧
        p.raft.rlog.append (p.raft.proposalEntries (p.proposeCh.take count)) = some p'.raft.rlog ∧
        (i, q) ∈ p.raft.batchWaiters (p.proposeCh.take count) := by
  cases h with
  | steady raft applier => exact Or.inl (raft.waiters _ waits)
  | heard input reply leads current raft applier =>
      have waited := raft.waiters _ waits
      simp only [Raft.recordAckLocked] at waited
      split at waited <;> exact Or.inl waited
  | elected later clock stood raft applier => exact Or.inl (raft.waiters _ waits)
  | @proposed count leads leads' term appended waiters done applied acked applier =>
      rw [waiters] at waits
      rcases addWaiter_mem waits with old | new
      · exact Or.inl old
      · exact Or.inr ⟨count, leads, leads', term, appended, new⟩
  | staged waiters done acked applied fresh => exact Or.inl (waiters ▸ waits)
  | passed raft stage stage' applied => exact Or.inl (raft ▸ waits)
  | finished raft stage final fresh =>
      rw [raft] at waits
      exact Or.inl (answers_waiters waits)

/-- Whoever has a result after an action had it before, or waited for an entry of the
batch that the action finishes. -/
theorem bearing_told (h : Bearing cfg n M p act p') {q : Proposal} {result : Bytes}
    (told : (q, .ok result) ∈ p'.raft.done) : (q, .ok result) ∈ p.raft.done ∨
      ∃ results x, p.applier = .applying [] results ∧ x ∈ results ∧
        (x.1.index, q) ∈ p.raft.waiters ∧ q.term = x.1.term ∧ result = x.2 := by
  cases h with
  | steady raft applier => exact Or.inl (raft.done q result told)
  | heard input reply leads current raft applier =>
      have before := raft.done q result told
      simp only [Raft.recordAckLocked] at before
      split at before <;> exact Or.inl before
  | elected later clock stood raft applier => exact Or.inl (raft.done q result told)
  | proposed leads leads' term appended waiters done applied acked applier =>
      exact Or.inl (done ▸ told)
  | staged waiters done acked applied fresh => exact Or.inl (done ▸ told)
  | passed raft stage stage' applied => exact Or.inl (raft ▸ told)
  | @finished results last raft stage final fresh =>
      rw [raft] at told
      rcases answers_mem told with old | ⟨x, there, waits, same, value⟩
      · exact Or.inl old
      · exact Or.inr ⟨results, x, stage, there, waits, same, value⟩

end Answers

section Step

variable {cfg : Config ID}

theorem promises_other {m : ID} (grows : Grows n a a') (other : m ≠ n) (h : Promises M a m p) :
    Promises M a' m p where
  waiters i q hq := ⟨(h.waiters i q hq).1, getElem?_of_pre (grows.ledger _) (h.waiters i q hq).2⟩
  done q result hq := acknowledged_mono grows (grows.term m) (Nat.le_refl _) (h.done q result hq)
  results := by rw [grows.otherLog m other]; exact h.results

/-- The entries a leader makes of a batch are in its ledger, where their proposals wait. -/
theorem batchWaiters_ledger {r : Raft ID} {batch : List Proposal} {rlog : RaftLog}
    {L : List Entry} (appended : r.rlog.append (r.proposalEntries batch) = some rlog)
    (held : Holds L rlog) {i : Nat} {q : Proposal} (h : (i, q) ∈ r.batchWaiters batch) :
    q.term = r.term ∧ 0 < i ∧ L[i - 1]? = some (q.entry i) := by
  obtain ⟨k, q₀, there, rfl, rfl⟩ := batchWaiters_mem h
  have entries : rlog.entries = L.drop rlog.snapIndex := held.entries
  rw [append_eq appended] at entries
  have found := congrArg (·[r.rlog.entries.length + k]?) entries
  simp only [List.getElem?_drop] at found
  rw [List.getElem?_append_right (Nat.le_add_right _ _), Nat.add_sub_cancel_left,
    Raft.proposalEntries, List.getElem?_mapIdx, there, Option.map_some] at found
  refine ⟨rfl, by omega, ?_⟩
  rw [show r.rlog.lastIndex + 1 + k - 1 = r.rlog.snapIndex + (r.rlog.entries.length + k) by
    rw [RaftLog.lastIndex]; omega, ← found]
  rfl

/-- A waiter that is answered was waiting for the very entry that was applied. -/
theorem answered_entry (sound : Sound cfg a) (h : Node M a n p) (promises : Promises M a n p)
    {results : List (Entry × Bytes)} (stage : p.applier = .applying [] results)
    {x : Entry × Bytes} (there : x ∈ results) {q : Proposal}
    (waits : (x.1.index, q) ∈ p.raft.waiters) (same : q.term = x.1.term) :
    ∃ P, P.length + 1 = x.1.index ∧ P.length < p.raft.lastApplied + results.length ∧
      CommittedBy a (a.term n) (P ++ [q.entry (P.length + 1)]) ∧
      Produces M P (q.entry (P.length + 1)) x.2 := by
  obtain ⟨k, at_⟩ := List.getElem?_of_mem there
  have entry := applying_results h.working stage at_
  have index := log_indexed sound n _ _ entry
  obtain ⟨-, ledger⟩ := promises.waiters _ _ waits
  have inside := (List.getElem?_eq_some_iff.mp entry).1
  have pre := sound.inv.log_matched n (p.raft.lastApplied + k + 1) (by omega) inside
  rw [Consensus.termAt_succ, entry, Option.map_some, Option.getD_some, ← same] at pre
  have held : ((a.log n).take (p.raft.lastApplied + k + 1))[p.raft.lastApplied + k]? =
      some x.1 := by
    rw [List.getElem?_take_of_lt (by omega), entry]
  rw [index, Nat.add_sub_cancel] at ledger
  have eq := (getElem?_of_pre pre held).symm.trans ledger
  have own : x.1 = q.entry (p.raft.lastApplied + k + 1) := Option.some.inj eq
  have size : ((a.log n).take (p.raft.lastApplied + k)).length = p.raft.lastApplied + k := by
    rw [List.length_take]
    omega
  have short := (List.getElem?_eq_some_iff.mp at_).1
  refine ⟨(a.log n).take (p.raft.lastApplied + k), by omega, by omega, ?_, ?_⟩
  · rw [size, ← own]
    have grown : (a.log n).take (p.raft.lastApplied + k) ++ [x.1] =
        (a.log n).take (p.raft.lastApplied + k + 1) := by
      rw [List.take_add_one, entry]
      rfl
    have committed := Consensus.committedBy_take h.committed (p.raft.lastApplied + k + 1)
    have horizon := h.working.horizon_le
    simp only [Process.horizon, stage, List.length_nil] at horizon
    rw [List.take_take, Nat.min_eq_left (by omega)] at committed
    rw [grown]
    exact committed
  · rw [size, ← own]
    exact promises.results [] results stage k x at_ (by rw [own]; rfl)

/-- A batch that ends has taken `lastApplied` to its last entry. -/
theorem finished_applied (sound : Sound cfg a) (h : Working M (a.log n) p)
    {results : List (Entry × Bytes)} {last : Entry × Bytes}
    (raft : p'.raft = p.raft.finishBatch results last.1.index)
    (stage : p.applier = .applying [] results) (final : results.getLast? = some last) :
    p.raft.lastApplied + results.length ≤ p'.raft.lastApplied ∧
      p.raft.lastApplied ≤ p'.raft.lastApplied := by
  obtain ⟨waiters, done, eq⟩ := foldl_answer_eq p.raft results
  have applied : p'.raft.lastApplied = max p.raft.lastApplied last.1.index := by
    simp only [raft, Raft.finishBatch, eq]
  rw [List.getLast?_eq_getElem?] at final
  have index := log_indexed sound n _ _ (applying_results h stage final)
  have short := (List.getElem?_eq_some_iff.mp final).1
  omega

/-- The results of a batch in hand stay true while the rest of the node moves. -/
theorem results_stable (sound' : Sound cfg a') (grows : Grows n a a') (h : Node M a n p)
    (h' : Node M a' n p') (promises : Promises M a n p) (applier : p'.applier = p.applier)
    (applied : p'.raft.lastApplied = p.raft.lastApplied) {entries : List Entry}
    {results : List (Entry × Bytes)} (stage : p'.applier = .applying entries results) {k : Nat}
    {x : Entry × Bytes} (there : results[k]? = some x) (normal : x.1.type = .normal) :
    Produces M ((a'.log n).take (p'.raft.lastApplied + k)) x.1 x.2 := by
  have produced := promises.results entries results (applier ▸ stage) k x there normal
  have short := (List.getElem?_eq_some_iff.mp there).1
  have bound := h.working.horizon_le
  have bound' := h'.working.horizon_le
  simp only [Process.horizon, applier ▸ stage] at bound
  simp only [Process.horizon, stage] at bound'
  rw [committed_take_eq sound' grows h h' (by omega) (by omega), applied]
  exact produced

variable [DecidableEq ID]

theorem promises_run {act : Action ID} (sound : Sound cfg a) (sound' : Sound cfg a')
    (grows : Grows n a a') (h : Node M a n p) (h' : Node M a' n p')
    (bearing : Bearing cfg n M p act p') (promises : Promises M a n p) : Promises M a' n p' := by
  have waits {i : Nat} {q : Proposal} (hq : (i, q) ∈ p.raft.waiters) :
      0 < i ∧ (a'.ledger q.term)[i - 1]? = some (q.entry i) :=
    ⟨(promises.waiters i q hq).1, getElem?_of_pre (grows.ledger _) (promises.waiters i q hq).2⟩
  have told (applied : p.raft.lastApplied ≤ p'.raft.lastApplied) {q : Proposal} {result : Bytes}
      (hq : (q, .ok result) ∈ p.raft.done) :
      Acknowledged M a' (a'.term n) p'.raft.lastApplied q result :=
    acknowledged_mono grows (grows.term n) applied (promises.done q result hq)
  have steady {r : Raft ID} (raft : Steady r p'.raft) (waiters : r.waiters = p.raft.waiters)
      (done : r.done = p.raft.done) (applied : r.lastApplied = p.raft.lastApplied)
      (applier : p'.applier = p.applier) : Promises M a' n p' := by
    have same := raft.applied.trans applied
    refine ⟨fun i q hq => waits (waiters ▸ raft.waiters _ hq),
      fun q result hq => told same.ge (done ▸ raft.done q result hq), ?_⟩
    intro entries results stage k x there normal
    exact results_stable sound' grows h h' promises applier same stage
      there normal
  cases bearing with
  | steady raft applier => exact steady raft rfl rfl rfl applier
  | @heard m peer sentAt respTerm input reply leads current raft applier =>
      have same : (p.raft.recordAckLocked peer sentAt).waiters = p.raft.waiters ∧
          (p.raft.recordAckLocked peer sentAt).done = p.raft.done ∧
          (p.raft.recordAckLocked peer sentAt).lastApplied = p.raft.lastApplied := by
        simp only [Raft.recordAckLocked]
        split <;> exact ⟨rfl, rfl, rfl⟩
      exact steady raft same.1 same.2.1 same.2.2 applier
  | elected later clock stood raft applier => exact steady raft rfl rfl rfl applier
  | proposed leads leads' term appended waiters done applied acked applier =>
      refine ⟨fun i q hq => ?_, fun q result hq => told applied.ge (done ▸ hq), ?_⟩
      · rw [waiters] at hq
        rcases addWaiter_mem hq with old | new
        · exact waits old
        · obtain ⟨own, pos, there⟩ := batchWaiters_ledger appended h'.log new
          have ledger := sound'.inv.leader_log (h'.leads leads').leader h'.term.symm
          rw [ledger, term, ← own] at there
          exact ⟨pos, there⟩
      · intro entries results stage k x there normal
        exact results_stable sound' grows h h' promises applier applied stage there normal
  | staged waiters done acked applied fresh =>
      refine ⟨fun i q hq => waits (waiters ▸ hq), fun q result hq => told applied (done ▸ hq), ?_⟩
      intro entries results stage k x there
      rw [fresh entries results stage] at there
      cases there
  | @passed e entries results result raft stage stage' applied =>
      have lastApplied : p'.raft.lastApplied = p.raft.lastApplied := by rw [raft]
      refine ⟨fun i q hq => waits (raft ▸ hq),
        fun q result hq => told lastApplied.ge (raft ▸ hq), ?_⟩
      intro entries' results' stage'' k x there normal
      obtain ⟨rfl, rfl⟩ := Applier.applying.inj (stage'.symm.trans stage'')
      have position := position_le_horizon h.working
      have bound := h.working.horizon_le
      have bound' := h'.working.horizon_le
      have reflects := h.working.reflects
      simp only [Process.horizon, stage'', List.length_append, List.length_singleton] at bound'
      simp only [Process.position, stage] at reflects position
      have short := (List.getElem?_eq_some_iff.mp there).1
      rw [List.length_append, List.length_singleton] at short
      have commit : p'.raft.commitIndex = p.raft.commitIndex := by rw [raft]
      rw [committed_take_eq sound' grows h h' (by omega) (by omega), lastApplied]
      rcases Nat.lt_or_ge k results.length with old | new
      · rw [List.getElem?_append_left old] at there
        exact promises.results _ _ stage k x there normal
      · have last : k = results.length := by omega
        subst last
        rw [List.getElem?_append_right (Nat.le_refl _), Nat.sub_self] at there
        cases there
        exact ⟨p.machine, p'.machine, reflects, applied normal⟩
  | @finished results last raft stage final fresh =>
      obtain ⟨reached, moved⟩ := finished_applied sound h.working raft stage final
      refine ⟨fun i q hq => ?_, fun q result hq => ?_, ?_⟩
      · rw [raft] at hq
        exact waits (answers_waiters hq)
      · rw [raft] at hq
        rcases answers_mem hq with old | ⟨x, there, waiting, same, rfl⟩
        · exact told moved old
        · obtain ⟨P, -, acknowledged⟩ := answered_entry sound h promises stage there waiting same
          exact acknowledged_mono grows (grows.term n) reached ⟨P, acknowledged⟩
      · intro entries results stage k x there
        rw [fresh entries results stage] at there
        cases there

end Step

section Runs

theorem promises_initial (M : StateMachine σ) (m : ID) :
    Promises M (Consensus.State.initial : Abs ID) m ((Group.initial M).procs m) :=
  ⟨fun i q hq => (by cases hq), fun q result hq => (by cases hq),
    fun entries results stage => by cases stage⟩

variable [DecidableEq ID] {cfg : Config ID} {T : Transport} {g g' : Group ID σ}

theorem promises_step (rel : Rel cfg M a g) (rel' : Rel cfg M a' g') (grows : Grows n a a')
    (step : Group.StepOf cfg M T n g g') (h : ∀ m, Promises M a m (g.procs m)) :
    ∀ m, Promises M a' m (g'.procs m) := by
  intro m
  by_cases other : m = n
  · subst other
    have node' := rel'.nodes m
    cases step with
    | @run act out p sent s enabled stored next =>
        simp only [Function.update_self] at node' ⊢
        have bearing := effect_bearing (exec_effect enabled.exec) next
        exact promises_run rel.sound rel'.sound grows (rel.nodes m) node'
          (bearing_storage bearing s) (h m)
    | @crash ops s p interrupted stored restarted =>
        obtain ⟨raft, machine, created, -, rfl⟩ := start_eq restarted
        obtain ⟨rlog, -, rfl⟩ := Option.map_eq_some_iff.mp created
        simp only [Function.update_self]
        exact ⟨fun i q hq => (by cases hq), fun q result hq => (by cases hq),
          fun entries results stage => by cases stage⟩
  · rw [Group.stepOf_other step other]
    exact promises_other grows other (h m)

/-- Along every run the promises are kept. -/
theorem promises_steps (honours : T.HonoursContext) (rel : Rel cfg M a g)
    (promises : ∀ m, Promises M a m (g.procs m)) (steps : Group.Steps cfg M T g g') :
    ∃ a', Consensus.Later a a' ∧ Rel cfg M a' g' ∧ ∀ m, Promises M a' m (g'.procs m) :=
  rel_induct (I := fun a g => ∀ m, Promises M a m (g.procs m)) honours
    (fun rel rel' advance step h => promises_step rel rel' advance.grows step h) rel promises steps

theorem reachable_promises (honours : T.HonoursContext) (h : Group.Reachable cfg M T g) :
    ∃ a, Rel cfg M a g ∧ ∀ m, Promises M a m (g.procs m) := by
  obtain ⟨a, -, rel, promises⟩ := promises_steps honours (rel_initial M) (promises_initial M) h
  exact ⟨a, rel, promises⟩

end Runs

end EdgeKV
