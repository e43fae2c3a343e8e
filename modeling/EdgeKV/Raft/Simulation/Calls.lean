import EdgeKV.Raft.Simulation.Applier

/-!
The leader's calls and the restart of a node. A call is built from the log of the
leader and says so; what it says stays true when it is sent later. A snapshot is
read outside the lock, so a deposed leader may read one that is not from its term:
sending it needs a context that is still live.
-/
namespace EdgeKV

open Consensus (termAt CommittedBy Grows majority)

variable {ID σ : Type} {M : StateMachine σ} {a : Abs ID} {n : ID} {p : Process ID σ}

theorem node_calls (h : Node M a n p) {calls : List (Call ID)} {clock : Nat}
    (sound : ∀ c ∈ calls, CallRel M a n c) : Node M a n { p with calls, clock } where
  durable := h.durable
  term := h.term
  log := h.log
  snap_le := h.snap_le
  stored_le := h.stored_le
  commit_le := h.commit_le
  committed := h.committed
  leads := h.leads
  stands := h.stands
  calls := sound
  working := working_mono h.working rfl le_rfl rfl rfl rfl rfl le_rfl rfl

/-- A restarted node knows what its storage holds, and nothing more. -/
theorem restart_node {cfg : Config ID} (sound : Sound cfg a) {s : MemStorage ID}
    (durable : Durable M a n s) {clock : Nat} (restarted : Process.start M s clock = some p) :
    Node M a n p := by
  obtain ⟨raft, machine, created, restored, rfl⟩ := start_eq restarted
  rw [new_eq durable.log (log_indexed sound n)] at created
  obtain rfl := Option.some.inj created
  have reflects : Reflects M machine ((a.log n).take s.snapIndex) := by
    cases saved : s.snapMeta.isSome with
    | true =>
        rw [saved, if_pos rfl] at restored
        exact covers_restore M (durable.covers saved) restored
    | false =>
        rw [saved, if_neg Bool.false_ne_true] at restored
        obtain rfl := Option.some.inj restored
        have none : s.snapMeta = none := by simpa using saved
        rw [MemStorage.snapIndex, none]
        exact .init
  exact
    { durable := durable
      term := durable.term
      log := durable.log
      snap_le := le_rfl
      stored_le := le_rfl
      commit_le := durable.log.le
      committed := durable.committed
      leads := fun state => by cases state
      stands := fun state => by cases state
      calls := fun c hc => by cases hc
      working :=
        { applied_le := le_rfl
          horizon_le := le_rfl
          reflects := reflects
          stage := trivial
          pending := fun none => by cases none
          reach := Nat.le_max_left _ _ } }

/-- The snapshot that `sendSnapshot` reads is sound if the node still leads. -/
theorem snapshotCall_rel {cfg : Config ID} (sound : Sound cfg a) (h : Node M a n p) {peer : ID}
    {term : Nat} (led : a.leader term = some n) {call : Call ID}
    (built : Raft.snapshotCall n peer term p.storage = some call) : CallRel M a n call := by
  obtain ⟨snapMeta, saved, rfl⟩ := Option.map_eq_some_iff.mp built
  refine ⟨led, rfl, fun current => ?_⟩
  obtain ⟨L, stood, -⟩ := sound.inv.leader_stood led
  have same : a.term n = term := Nat.le_antisymm current (sound.inv.cand_le stood)
  have ledger : a.log n = a.ledger term := sound.inv.leader_log led same
  have index : p.storage.snapIndex = snapMeta.lastIncludedIndex := by
    rw [MemStorage.snapIndex, saved]
    rfl
  have lastTerm : p.storage.snapTerm = snapMeta.lastIncludedTerm := by
    rw [MemStorage.snapTerm, saved]
    rfl
  have durable := h.durable
  refine ⟨led, ?_, ?_, ?_, ?_⟩
  · rw [← ledger, ← index]
    exact durable.log.le
  · rw [← ledger, ← index, ← lastTerm]
    exact durable.log.snapTerm
  · rw [← ledger, ← index, ← same]
    exact durable.committed
  · rw [← ledger, ← index]
    exact durable.covers (saved ▸ rfl)

/-- What leaves a node whose context is live. -/
theorem send_rel (h : Node M a n p) {call : Call ID} (built : call ∈ p.calls)
    (leading : p.raft.leading call.term) {now : Nat} {m : Msg ID} (sent : m ∈ call.messages now) :
    MsgRel M a m := by
  have rel := h.calls call built
  have term : a.term n = call.term := h.term.symm.trans leading.2.1
  cases call with
  | append peer req =>
      rw [List.mem_singleton.mp sent]
      exact rel
  | needSnapshot peer t => cases sent
  | install peer req =>
      rw [List.mem_singleton.mp sent]
      exact rel.2.2 term.le

/-- The requests that a leader builds describe its own ledger. -/
theorem replicateOnce_call {cfg : Config ID} (sound : Sound cfg a) (h : Node M a n p) {peer : ID}
    {call : Call ID} (built : p.raft.replicateOnce cfg n peer = some (some call)) : CallRel M a n call := by
  simp only [Raft.replicateOnce] at built
  split at built
  · cases built
  next leading =>
    have leads := h.leads (not_not.mp leading).1
    split at built
    · cases built
      exact leads.leader
    next reach =>
      have low := Nat.lt_of_not_le reach
      have high := leads.next peer
      have inside : p.raft.nextIndex peer - 1 ≤ (a.log n).length := by omega
      rw [holds_lastIndex h.log, holds_slice h.log low (Nat.min_le_left _ _)] at built
      obtain rfl := Option.some.inj (Option.some.inj built)
      have ledger := sound.inv.leader_log leads.leader h.term.symm
      generalize hlast : min (a.log n).length (p.raft.nextIndex peer - 1 + cfg.maxAppendEntries) =
        last
      have bound : last ≤ (a.log n).length := hlast ▸ Nat.min_le_left _ _
      have size : p.raft.nextIndex peer - 1 +
          (((a.log n).drop (p.raft.nextIndex peer - 1)).take
            (last + 1 - p.raft.nextIndex peer)).length = last := by
        rw [List.length_take, List.length_drop]
        omega
      have cut : ((a.log n).drop (p.raft.nextIndex peer - 1)).take
          (last + 1 - p.raft.nextIndex peer) =
          ((a.log n).take last).drop (p.raft.nextIndex peer - 1) := by
        rw [List.drop_take]
        congr 1
        omega
      have prevTerm := holds_term_some h.log (i := p.raft.nextIndex peer - 1) (by omega) inside
      refine ⟨leads.leader, ?_, ?_, ?_, ?_, ?_⟩
      · rw [size, ← ledger]
        exact bound
      · rw [size, ← ledger]
        exact cut
      · rw [prevTerm, ← ledger]
        rfl
      · rw [← ledger]
        exact h.commit_le
      · rw [← ledger]
        exact h.term ▸ h.committed

end EdgeKV
