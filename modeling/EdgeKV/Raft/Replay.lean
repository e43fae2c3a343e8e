import EdgeKV.Raft.Safety

/-!
The state machine of a replica is the fold of the group's committed log. The log of
a run is made of the entries that any node held below its commit index at any time
of that run; every one of them is in a ledger of the protocol, and every entry that
the protocol commits was held, committed, by the leader that committed it.
-/
namespace EdgeKV

open Consensus (CommittedBy Grows)

variable {ID σ : Type}

namespace StateMachine

/-- What one entry does to a machine; `none` where the machine panics. -/
def step (M : StateMachine σ) (s : σ) (e : Entry) : Option σ :=
  match e.type with
  | .noop => some s
  | .normal => (M.apply s e.index e.data).map Prod.fst

/-- The entries of a log applied in order to the empty machine. -/
def replay (M : StateMachine σ) (L : List Entry) : Option σ := L.foldlM M.step M.init

/-- `Restore` of a snapshot gives back the state it was taken of. -/
def RoundTrips (M : StateMachine σ) : Prop :=
  ∀ s data, M.snapshot s data → M.restore data = some s

variable {M : StateMachine σ}

theorem replay_concat (L : List Entry) (e : Entry) :
    M.replay (L ++ [e]) = (M.replay L).bind fun s => M.step s e := by
  simp [replay, List.foldlM_append]

theorem reflects_replay (trips : M.RoundTrips) {s : σ} {L : List Entry} (h : Reflects M s L) :
    M.replay L = some s := by
  induction h with
  | init => rfl
  | @apply s s' L e result _ normal applied ih =>
      rw [replay_concat, ih, Option.bind_some, step, normal]
      simp only [applied, Option.map_some]
  | @skip s L e _ noop ih => rw [replay_concat, ih, Option.bind_some, step, noop]
  | @restore s s' L data _ captured restored ih =>
      rw [trips s data captured] at restored
      rw [ih, Option.some.inj restored]

end StateMachine

namespace Group

/-- Some node of `g` holds `e` and knows it to be committed. -/
def Commits (g : Group ID σ) (e : Entry) : Prop :=
  ∃ n, e ∈ (g.procs n).raft.rlog.entries ∧ e.index ≤ (g.procs n).raft.commitIndex

/-- `C` is the group's committed log up to index `i`, over the states of a run. -/
structure CommittedLog (history : List (Group ID σ)) (i : Nat) (C : List Entry) : Prop where
  length : C.length = i
  indexed : Indexed C
  exact : ∀ e, e ∈ C ↔ e.index ≤ i ∧ ∃ g ∈ history, Commits g e

/-- A run of the group that ends in `g`, with the states it went through. -/
inductive History [DecidableEq ID] (cfg : Config ID) (M : StateMachine σ) (T : Transport) :
    List (Group ID σ) → Group ID σ → Prop
  | initial : History cfg M T [initial M] (initial M)
  | step {history : List (Group ID σ)} {g g' : Group ID σ} (h : History cfg M T history g)
      (next : Step cfg M T g g') : History cfg M T (g' :: history) g'

end Group

/-- The applier has not begun to change the state machine for what it has in hand. -/
def Applier.Between (applier : Applier ID) : Prop :=
  applier.Fresh ∧ ∀ snap, applier ≠ .restored snap

section Ledgers

variable {cfg : Config ID} {M : StateMachine σ} {a a' : Abs ID} {n : ID}
  {history : List (Group ID σ)} {g g' : Group ID σ}

/-- What the ledgers of the protocol commit is what the nodes of a run have known to
be committed. -/
structure Witnessed (history : List (Group ID σ)) (a : Abs ID) : Prop where
  known : ∀ t k e, k < a.commit t → (a.ledger t)[k]? = some e → ∃ g ∈ history, g.Commits e
  sound : ∀ g ∈ history, ∀ e, g.Commits e →
    0 < e.index ∧ ∃ t P, CommittedBy a t P ∧ P[e.index - 1]? = some e

theorem witnessed_committedBy (h : Witnessed history a) {t k : Nat} {P : List Entry} {e : Entry}
    (committed : CommittedBy a t P) (there : P[k]? = some e) : ∃ g ∈ history, g.Commits e := by
  obtain ⟨u, -, c, hc, -, rfl⟩ := committed
  rw [List.getElem?_take] at there
  split at there
  next below => exact h.known u k e (by omega) there
  · cases there

theorem commits_committedBy (sound : Sound cfg a) (h : Node M a n (g.procs n)) {e : Entry}
    (held : e ∈ (g.procs n).raft.rlog.entries) (le : e.index ≤ (g.procs n).raft.commitIndex) :
    0 < e.index ∧ ∃ t P, CommittedBy a t P ∧ P[e.index - 1]? = some e := by
  obtain ⟨above, there⟩ := held_entry h.log (log_indexed sound n) held
  refine ⟨by omega, _, _, h.committed, ?_⟩
  rw [List.getElem?_take_of_lt (by omega)]
  exact there

/-- The committed log up to `i`, found as a committed prefix of the protocol. -/
theorem committedLog_of (sound : Sound cfg a) (h : Witnessed history a) {t i : Nat}
    {C : List Entry} (committed : CommittedBy a t C) (length : C.length = i) :
    Group.CommittedLog history i C := by
  have indexed : Indexed C :=
    matched_indexed sound (Consensus.committedBy_matched sound.inv committed)
  refine ⟨length, indexed, fun e => ⟨fun inside => ?_, fun ⟨le, g, there, knows⟩ => ?_⟩⟩
  · obtain ⟨k, at_⟩ := List.getElem?_of_mem inside
    have index := indexed k e at_
    have short := (List.getElem?_eq_some_iff.mp at_).1
    exact ⟨by omega, witnessed_committedBy h committed at_⟩
  · obtain ⟨pos, u, P, other, at_⟩ := h.sound g there e knows
    have short := (List.getElem?_eq_some_iff.mp at_).1
    have agree := Consensus.committed_agree sound.inv committed other (i := e.index - 1)
      (by omega) short
    exact List.mem_of_getElem? (agree.trans at_)

theorem witnessed_initial (M : StateMachine σ) :
    Witnessed [Group.initial M] (Consensus.State.initial : Abs ID) := by
  refine ⟨fun t k e below => (by cases below), fun g hg e knows => ?_⟩
  obtain rfl := List.mem_singleton.mp hg
  obtain ⟨n, held, -⟩ := knows
  cases held

variable [DecidableEq ID]

/-- One step of the group: what a leader newly commits it holds itself, unless it has
compacted it, and then it was committed before. -/
theorem witnessed_step (rel : Rel cfg M a g) (rel' : Rel cfg M a' g')
    (advance : Advance cfg n (g.procs n).proposeCh (g'.procs n).raft a a') (h : Witnessed history a) :
    Witnessed (g' :: history) a' := by
  obtain ⟨a₁, ops, moves, commits⟩ := advance.split
  have grown := moves.grows rel.sound
  have node' := rel'.nodes n
  have old {t k : Nat} {e : Entry} (below : k < a₁.commit t)
      (there : (a₁.ledger t)[k]? = some e) : ∃ g₀ ∈ g' :: history, g₀.Commits e := by
    rw [moves.commit] at below
    have inside := below.trans_le (Consensus.commit_le rel.sound.inv t)
    have before := getElem?_of_pre (grown.ledger t) (List.getElem?_eq_getElem inside)
    rw [there] at before
    obtain ⟨g₀, hg₀, knows⟩ := h.known t k e below
      (by rw [Option.some.inj before]; exact List.getElem?_eq_getElem inside)
    exact ⟨g₀, List.mem_cons_of_mem _ hg₀, knows⟩
  refine ⟨fun t k e below there => ?_, fun g₀ hg₀ e knows => ?_⟩
  · rw [commits.ledger] at there
    rcases commits.commit t with same | ⟨leads, term, bound⟩
    · exact old (same ▸ below) there
    · have log : a'.log n = a'.ledger t :=
        term ▸ rel'.sound.inv.leader_log (node'.leads leads).leader node'.term.symm
      have own : (a'.log n)[k]? = some e := by rw [log, commits.ledger, there]
      rcases Nat.lt_or_ge k (g'.procs n).raft.rlog.snapIndex with compacted | held
      · obtain ⟨u, -, c, hc, -, eq⟩ := commits.known
        have read := congrArg (·[k]?) eq
        simp only [List.getElem?_take, if_pos compacted, ← commits.log, own] at read
        split at read
        next small => exact old (small.trans_le hc) read.symm
        · cases read
      · have index := log_indexed rel'.sound n k e own
        exact ⟨g', List.mem_cons_self .., n, entry_held node'.log own held, by omega⟩
  · rcases List.mem_cons.mp hg₀ with rfl | before
    · obtain ⟨m, held, le⟩ := knows
      exact commits_committedBy rel'.sound (rel'.nodes m) held le
    · obtain ⟨pos, t, P, committed, there⟩ := h.sound g₀ before e knows
      exact ⟨pos, t, P, Consensus.committedBy_grows advance.grows committed, there⟩

/-- Along every run the protocol records what the nodes know. -/
theorem witnessed_history {T : Transport} (honours : T.HonoursContext)
    (run : Group.History cfg M T history g) : ∃ a, Rel cfg M a g ∧ Witnessed history a := by
  induction run with
  | initial => exact ⟨_, rel_initial M, witnessed_initial M⟩
  | step _ next ih =>
      obtain ⟨n, next⟩ := next
      obtain ⟨a, rel, witnessed⟩ := ih
      obtain ⟨a', advance, rel'⟩ := rel_step honours rel next
      exact ⟨a', rel', witnessed_step rel rel' advance witnessed⟩

end Ledgers

section Fold

variable {cfg : Config ID} {M : StateMachine σ} {a : Abs ID} {n : ID} {p : Process ID σ}
  {history : List (Group ID σ)}

theorem between_position (between : p.applier.Between) : p.position = p.raft.lastApplied := by
  simp only [Process.position]
  split
  next snap stage => exact absurd stage (between.2 snap)
  next entries results stage => rw [between.1 entries results stage]; rfl
  · rfl

/-- What a node has committed up to `i` is the group's committed log. -/
theorem node_committedLog (sound : Sound cfg a) (witnessed : Witnessed history a)
    (h : Node M a n p) {i : Nat} (le : i ≤ p.raft.commitIndex) :
    Group.CommittedLog history i ((a.log n).take i) := by
  have committed := Consensus.committedBy_take h.committed i
  rw [List.take_take, Nat.min_eq_left le] at committed
  refine committedLog_of sound witnessed committed ?_
  rw [List.length_take, Nat.min_eq_left (le.trans h.commit_le)]

end Fold

section Samples

/-- A machine that keeps all the bytes it was given. -/
def journal : StateMachine Bytes where
  init := []
  apply := fun s _ data => some (s ++ data, s)
  snapshot := fun s data => data = s
  restore := fun data => some data

/-- After `committedRun`, node 0 applies the no-op, takes on a proposal, commits it
with node 1 and applies it. -/
def journalRun : List (Nat × Action Nat) :=
  let write : Entry := { index := 2, term := 1, type := .normal, data := [5] }
  let req : AppendEntriesRequest Nat :=
    { term := 1, leaderId := 0, prevLogIndex := 1, prevLogTerm := 1, entries := [write]
      leaderCommit := 1 }
  committedRun ++
    [(0, .applier .apply), (0, .applier .finishBatch), (0, .client (.propose 0 [5])),
      (0, .client (.appendProposals 1)), (0, .replication (.replicate 1)),
      (0, .replication (.send (.append 1 req) 4)), (1, .replication (.appendEntries 4 req)),
      (0, .replication (.appendReply 1 4 req { term := 1, success := true })),
      (0, .applier .takeWork), (0, .applier .apply), (0, .applier .finishBatch)]

end Samples

section Runs

variable [DecidableEq ID]

theorem play_history {cfg : Config ID} {M : StateMachine σ} {T : Transport}
    {history : List (Group ID σ)} {g g' : Group ID σ} {actions : List (ID × Action ID)}
    (run : Group.History cfg M T history g) (h : Group.play cfg M T g actions = some g') :
    ∃ history', Group.History cfg M T history' g' := by
  induction actions generalizing g history with
  | nil => cases h; exact ⟨history, run⟩
  | cons action rest ih =>
      obtain ⟨mid, first, h⟩ := Option.bind_eq_some_iff.mp h
      exact ih (.step run (Group.act_step first)) h

/-- Each replica's machine is the fold of the committed log of the run up to
`lastApplied`, a stored snapshot is of the fold up to its index, and what is about to
be restored is the fold up to a later index. -/
theorem machine_replays_committed_log (cfg : Config ID) (M : StateMachine σ) (T : Transport)
    (honours : T.HonoursContext) (trips : M.RoundTrips) (history : List (Group ID σ))
    (g : Group ID σ) (run : Group.History cfg M T history g) (n : ID) :
    ((g.procs n).applier.Between →
      ∃ C, Group.CommittedLog history (g.procs n).raft.lastApplied C ∧
        M.replay C = some (g.procs n).machine) ∧
    (∀ snapMeta, (g.procs n).storage.snapMeta = some snapMeta →
      ∃ C s, Group.CommittedLog history snapMeta.lastIncludedIndex C ∧ M.replay C = some s ∧
        M.snapshot s (g.procs n).storage.snapshot) ∧
    ∀ snap, (g.procs n).applier = .restoring snap →
      (g.procs n).raft.lastApplied < snap.lastIncludedIndex ∧
      ∃ C, Group.CommittedLog history snap.lastIncludedIndex C ∧
        M.restore snap.data = M.replay C := by
  obtain ⟨a, rel, witnessed⟩ := witnessed_history honours run
  have node := rel.nodes n
  have log {i : Nat} (le : i ≤ (g.procs n).raft.commitIndex) :=
    node_committedLog rel.sound witnessed node le
  refine ⟨fun between => ?_, fun snapMeta saved => ?_, fun snap stage => ?_⟩
  · have reflects := node.working.reflects
    rw [between_position between] at reflects
    exact ⟨_, log node.working.applied_le, M.reflects_replay trips reflects⟩
  · have index : (g.procs n).storage.snapIndex = snapMeta.lastIncludedIndex := by
      rw [MemStorage.snapIndex, saved]
      rfl
    obtain ⟨s, reflects, captured⟩ := node.durable.covers (by rw [saved]; rfl)
    rw [index] at reflects
    exact ⟨_, s, log (index ▸ node.stored_le), M.reflects_replay trips reflects, captured⟩
  · have staged := node.working.stage
    have bound := node.working.horizon_le
    simp only [Process.horizon, stage] at bound
    rw [stage] at staged
    obtain ⟨later, s, reflects, captured⟩ := staged
    refine ⟨later, _, log bound, ?_⟩
    rw [trips s snap.data captured, M.reflects_replay trips reflects]

theorem machine_replays_committed_log_journal :
    ∃ (history : List (Group Nat Bytes)) (g : Group Nat Bytes),
      Group.History trio journal ⟨false⟩ history g ∧
      ∃ C, Group.CommittedLog history 2 C ∧ journal.replay C = some [5] := by
  obtain ⟨g, hg, applied, machine, stage⟩ : ∃ g, Group.play trio journal ⟨false⟩
      (Group.initial journal) journalRun = some g ∧ (g.procs 0).raft.lastApplied = 2 ∧
      (g.procs 0).machine = [5] ∧ (g.procs 0).applier = .waiting := ⟨_, rfl, rfl, rfl, rfl⟩
  obtain ⟨history, run⟩ := play_history .initial hg
  have trips : journal.RoundTrips := fun s data captured => congrArg some captured
  have between : (g.procs 0).applier.Between := by
    rw [stage]
    exact ⟨fun entries results h => (by cases h), fun snap h => by cases h⟩
  obtain ⟨C, log, replay⟩ :=
    (machine_replays_committed_log trio journal ⟨false⟩ rfl trips history g run 0).1 between
  rw [applied] at log
  rw [machine] at replay
  exact ⟨history, g, run, C, log, replay⟩

end Runs
end EdgeKV
