import EdgeKV.Raft.Refinement

/-!
Steps of a replica as moves of the abstract protocol. `Moves` is a run of moves of
one node whose votes are exactly the ones the storage effects save. `Sim` is the
proof obligation of a region: every beginning of its effects leaves a storage that
some moves account for, which is what a crash needs, and all of them together lead
to the state the region ends in.
-/
namespace EdgeKV

open Consensus (termAt CommittedBy Grows majority)

variable {ID σ : Type}

theorem votes_cast_append (V : Votes ID) (n : ID) (ops ops' : List (StorageOp ID)) :
    V.cast n (ops ++ ops') = (V.cast n ops).cast n ops' := by
  funext m t c
  simp only [Votes.cast, List.mem_append]
  apply propext
  tauto

theorem node_known {M : StateMachine σ} {a : Abs ID} {n : ID} {p : Process ID σ}
    (h : Node M a n p) : CommittedBy a p.raft.term ((a.log n).take p.raft.rlog.snapIndex) := by
  have known := Consensus.committedBy_take h.committed p.raft.rlog.snapIndex
  rwa [List.take_take, Nat.min_eq_left (h.snap_le.trans h.stored_le), ← h.term] at known

variable [DecidableEq ID]

/-- Moves of node `n` that cast the votes among `ops`, add entries to ledgers only from
those among `ops`, and commit nothing. -/
structure Moves (cfg : Config ID) (n : ID) (ops : List (StorageOp ID)) (a a' : Abs ID) :
    Prop where
  steps : Consensus.Steps (majority cfg.peers) Entry.term n a a'
  voted : a'.voted = Votes.cast a.voted n ops
  indexed : ∀ t, Indexed (a'.ledger t)
  minted : ∀ t, ∀ e ∈ a'.ledger t, (∃ u, e ∈ a.ledger u) ∨ .entry e ∈ ops
  commit : a'.commit = a.commit

namespace Moves

variable {cfg : Config ID} {n : ID} {ops ops' : List (StorageOp ID)} {a a' a'' : Abs ID}

theorem sound (sound : Sound cfg a) (h : Moves cfg n ops a a') : Sound cfg a' :=
  ⟨(Consensus.inv_steps sound.inv h.steps).1, h.indexed⟩

theorem grows (sound : Sound cfg a) (h : Moves cfg n ops a a') : Grows n a a' :=
  (Consensus.inv_steps sound.inv h.steps).2

theorem refl (n : ID) (sound : Sound cfg a) : Moves cfg n [] a a :=
  ⟨.refl, (votes_cast_nil a.voted n).symm, sound.indexed, fun t _ he => Or.inl ⟨t, he⟩, rfl⟩

theorem trans (h : Moves cfg n ops a a') (h' : Moves cfg n ops' a' a'') :
    Moves cfg n (ops ++ ops') a a'' := by
  refine ⟨h.steps.trans h'.steps, by rw [h'.voted, h.voted, votes_cast_append], h'.indexed,
    fun t e he => ?_, h'.commit.trans h.commit⟩
  rcases h'.minted t e he with ⟨u, old⟩ | new
  · rcases h.minted u e old with older | new
    · exact Or.inl older
    · exact Or.inr (List.mem_append_left _ new)
  · exact Or.inr (List.mem_append_right _ new)

theorem one (step : Consensus.Step (majority cfg.peers) Entry.term n a a')
    (voted : ∀ m t c, a'.voted m t c ↔
      a.voted m t c ∨ (m = n ∧ StorageOp.hardState ⟨t, some c⟩ ∈ ops))
    (indexed : ∀ t, Indexed (a'.ledger t))
    (minted : ∀ t, ∀ e ∈ a'.ledger t, (∃ u, e ∈ a.ledger u) ∨ .entry e ∈ ops)
    (commit : a'.commit = a.commit) : Moves cfg n ops a a' := by
  refine ⟨.single step, ?_, indexed, minted, commit⟩
  funext m t c
  exact propext (voted m t c)

/-- A move that leaves the ledgers alone. -/
theorem still (sound : Sound cfg a) (step : Consensus.Step (majority cfg.peers) Entry.term n a a')
    (voted : ∀ m t c, a'.voted m t c ↔
      a.voted m t c ∨ (m = n ∧ StorageOp.hardState ⟨t, some c⟩ ∈ ops))
    (ledger : a'.ledger = a.ledger) (commit : a'.commit = a.commit) : Moves cfg n ops a a' :=
  one step voted (ledger ▸ sound.indexed) (fun t _ he => Or.inl ⟨t, ledger ▸ he⟩) commit

/-- Effects that save no vote show nothing of the moves. -/
theorem plain (h : Moves cfg n [] a a')
    (noVote : ∀ t c, StorageOp.hardState ⟨t, some c⟩ ∉ ops) : Moves cfg n ops a a' := by
  refine ⟨h.steps, ?_, h.indexed, fun t e he => ?_, h.commit⟩
  case refine_2 => exact Or.inl ((h.minted t e he).resolve_right List.not_mem_nil)
  rw [h.voted]
  funext m t c
  simp [Votes.cast, noVote]

end Moves

/-- The end of a region of node `n`: a leader may commit. What it has compacted was
committed before. -/
structure Commits (cfg : Config ID) (n : ID) (r : Raft ID) (a a' : Abs ID) : Prop where
  steps : Consensus.Steps (majority cfg.peers) Entry.term n a a'
  voted : a'.voted = a.voted
  log : a'.log = a.log
  ledger : a'.ledger = a.ledger
  commit : ∀ t, a'.commit t = a.commit t ∨
    (r.state = .leader ∧ r.term = t ∧ a'.commit t ≤ r.commitIndex)
  known : CommittedBy a r.term ((a.log n).take r.rlog.snapIndex)

/-- A node in place after the end of a region. -/
def Ended (cfg : Config ID) (M : StateMachine σ) (n : ID) (a : Abs ID) (p : Process ID σ) : Prop :=
  ∃ a', Commits cfg n p.raft a a' ∧ Node M a' n p

theorem Commits.grows {cfg : Config ID} {n : ID} {r : Raft ID} {a a' : Abs ID}
    (sound : Sound cfg a) (h : Commits cfg n r a a') : Grows n a a' :=
  (Consensus.inv_steps sound.inv h.steps).2

theorem Commits.sound {cfg : Config ID} {n : ID} {r : Raft ID} {a a' : Abs ID}
    (sound : Sound cfg a) (h : Commits cfg n r a a') : Sound cfg a' :=
  ⟨(Consensus.inv_steps sound.inv h.steps).1, h.ledger ▸ sound.indexed⟩

theorem Commits.refl {cfg : Config ID} {M : StateMachine σ} {a : Abs ID} {n : ID}
    {p : Process ID σ} {r : Raft ID} (h : Node M a n p) (same : p.raft = r) :
    Commits cfg n r a a :=
  ⟨.refl, rfl, rfl, rfl, fun _ => Or.inl rfl, same ▸ node_known h⟩

theorem Ended.node {cfg : Config ID} {M : StateMachine σ} {a : Abs ID} {n : ID}
    {p : Process ID σ} (h : Node M a n p) : Ended cfg M n a p :=
  ⟨a, .refl h rfl, h⟩

/-- What a region with the storage effects `ops` has to show. -/
structure Sim (cfg : Config ID) (M : StateMachine σ) (n : ID) (a : Abs ID) (s : MemStorage ID)
    (ops : List (StorageOp ID)) (post : Abs ID → MemStorage ID → Prop) : Prop where
  crash : ∀ ops' s', ops' <+: ops → s.performAll ops' = some s' →
    ∃ a', Moves cfg n ops' a a' ∧ Durable M a' n s'
  done : ∀ s', s.performAll ops = some s' → ∃ a', Moves cfg n ops a a' ∧ post a' s'

namespace Sim

variable {cfg : Config ID} {M : StateMachine σ} {n : ID} {a : Abs ID} {s : MemStorage ID}
  {ops ops' : List (StorageOp ID)} {post post' : Abs ID → MemStorage ID → Prop}

/-- A region without effects may still be moves of the protocol. -/
theorem silent {a' : Abs ID} (sound : Sound cfg a) (durable : Durable M a n s)
    (moves : Moves cfg n [] a a') (done : post a' s) : Sim cfg M n a s [] post where
  crash ops' s' begun stored := by
    rw [List.prefix_nil.mp begun] at stored ⊢
    cases stored
    exact ⟨a, Moves.refl n sound, durable⟩
  done s' stored := by
    cases stored
    exact ⟨a', moves, done⟩

theorem idle (sound : Sound cfg a) (durable : Durable M a n s) (done : post a s) :
    Sim cfg M n a s [] post :=
  silent sound durable (Moves.refl n sound) done

theorem single {op : StorageOp ID} (sound : Sound cfg a) (durable : Durable M a n s)
    (h : ∀ s', s.perform op = some s' →
      ∃ a', Moves cfg n [op] a a' ∧ Durable M a' n s' ∧ post a' s') :
    Sim cfg M n a s [op] post := by
  have one {s' : MemStorage ID} (stored : s.performAll [op] = some s') :
      s.perform op = some s' := by
    obtain ⟨m, first, rest⟩ := Option.bind_eq_some_iff.mp stored
    cases rest
    exact first
  constructor
  · intro ops' s' begun stored
    rcases List.prefix_cons_iff.mp begun with rfl | ⟨rest, rfl, pre⟩
    · cases stored
      exact ⟨a, Moves.refl n sound, durable⟩
    · rw [List.prefix_nil.mp pre] at stored ⊢
      obtain ⟨a', moves, durable', -⟩ := h s' (one stored)
      exact ⟨a', moves, durable'⟩
  · intro s' stored
    obtain ⟨a', moves, -, done⟩ := h s' (one stored)
    exact ⟨a', moves, done⟩

theorem mono (h : Sim cfg M n a s ops post)
    (imp : ∀ a' s', Moves cfg n ops a a' → post a' s' → post' a' s') :
    Sim cfg M n a s ops post' where
  crash := h.crash
  done s' stored := by
    obtain ⟨a', moves, done⟩ := h.done s' stored
    exact ⟨a', moves, imp a' s' moves done⟩

/-- A region followed by moves that no storage effect shows. -/
theorem andThen (h : Sim cfg M n a s ops post)
    (next : ∀ a' s', Moves cfg n ops a a' → post a' s' →
      ∃ a'', Moves cfg n [] a' a'' ∧ post' a'' s') : Sim cfg M n a s ops post' where
  crash := h.crash
  done s' stored := by
    obtain ⟨a', moves, done⟩ := h.done s' stored
    obtain ⟨a'', moves', done'⟩ := next a' s' moves done
    exact ⟨a'', List.append_nil ops ▸ moves.trans moves', done'⟩

/-- Regions one after the other. -/
theorem bind (h : Sim cfg M n a s ops post)
    (next : ∀ a' s', Moves cfg n ops a a' → post a' s' → Sim cfg M n a' s' ops' post') :
    Sim cfg M n a s (ops ++ ops') post' := by
  constructor
  · intro begun s' pre stored
    rcases List.prefix_or_prefix_of_prefix pre (List.prefix_append ops ops') with early | ⟨rest, rfl⟩
    · exact h.crash begun s' early stored
    · rw [performAll_append] at stored
      obtain ⟨mid, first, stored⟩ := Option.bind_eq_some_iff.mp stored
      obtain ⟨a', moves, done⟩ := h.done mid first
      obtain ⟨a'', moves', durable⟩ := (next a' mid moves done).crash rest s'
        ((List.prefix_append_right_inj ops).mp pre) stored
      exact ⟨a'', moves.trans moves', durable⟩
  · intro s' stored
    rw [performAll_append] at stored
    obtain ⟨mid, first, stored⟩ := Option.bind_eq_some_iff.mp stored
    obtain ⟨a', moves, done⟩ := h.done mid first
    obtain ⟨a'', moves', done'⟩ := (next a' mid moves done).done s' stored
    exact ⟨a'', moves.trans moves', done'⟩

end Sim
end EdgeKV
