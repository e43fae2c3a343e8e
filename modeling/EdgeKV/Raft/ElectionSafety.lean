import EdgeKV.Raft.Rounds
import EdgeKV.Consensus.Quorum
import Mathlib.Order.MinMax

/-!
Election safety. The history of votes, as the hard states ever saved, is carried
along a run: a node never saves two votes for one term, a grant on the wire was
saved before it was sent, and a leader has a majority of the votes of its term.
Nothing here depends on logs, snapshots or the state machine.
-/
namespace EdgeKV

open Consensus

variable {ID σ : Type}

/-- The votes cast so far: `V n t c` says that node `n` saved a vote for `c` in
term `t`. -/
abbrev Votes (ID : Type) := ID → Nat → ID → Prop

/-- The votes after node `n` has made the given effects durable. -/
def Votes.cast (V : Votes ID) (n : ID) (ops : List (StorageOp ID)) : Votes ID :=
  fun m t c => V m t c ∨ (m = n ∧ StorageOp.hardState ⟨t, some c⟩ ∈ ops)

/-- The votes of node `n` agree with the hard state it has saved last. -/
structure Recorded (V : Votes ID) (n : ID) (hs : HardState ID) : Prop where
  le : ∀ {t c}, V n t c → t ≤ hs.term
  current : ∀ {c}, V n hs.term c → hs.votedFor = some c
  saved : ∀ {c}, hs.votedFor = some c → V n hs.term c
  unique : ∀ {t c c'}, V n t c → V n t c' → c = c'

theorem votes_cast_nil (V : Votes ID) (n : ID) : V.cast n [] = V := by
  funext m t c
  simp [Votes.cast]

theorem votes_cast_cons (V : Votes ID) (n : ID) (op : StorageOp ID) (ops : List (StorageOp ID)) :
    V.cast n (op :: ops) = (V.cast n [op]).cast n ops := by
  funext m t c
  simp only [Votes.cast, List.mem_cons, List.not_mem_nil, or_false]
  apply propext
  tauto

theorem recorded_hardState {V : Votes ID} {n : ID} {hs hs' : HardState ID}
    (h : Recorded V n hs) (follows : hs.Follows hs') :
    Recorded (V.cast n [.hardState hs']) n hs' := by
  have fresh {t : Nat} {c : ID} (hc : StorageOp.hardState ⟨t, some c⟩ ∈ [StorageOp.hardState hs']) :
      t = hs'.term ∧ hs'.votedFor = some c := by
    simp only [List.mem_singleton, StorageOp.hardState.injEq] at hc
    rw [← hc]
    exact ⟨rfl, rfl⟩
  have old {c : ID} (hv : V n hs'.term c) : hs'.votedFor = some c := by
    rcases follows with later | ⟨same, kept⟩
    · exact absurd (h.le hv) (by omega)
    · rw [← same] at hv
      have voted := h.current hv
      rcases kept with none | eq
      · rw [none] at voted; cases voted
      · rw [← eq]; exact voted
  refine ⟨?_, ?_, ?_, ?_⟩
  · rintro t c (hv | ⟨-, hc⟩)
    · rcases follows with later | ⟨same, -⟩
      · exact (h.le hv).trans later.le
      · exact same ▸ h.le hv
    · exact (fresh hc).1.le
  · rintro c (hv | ⟨-, hc⟩)
    · exact old hv
    · exact (fresh hc).2
  · intro c hc
    refine Or.inr ⟨rfl, ?_⟩
    rw [← hc]
    exact List.mem_singleton.mpr rfl
  · rintro t c c' (hv | ⟨-, hc⟩) (hv' | ⟨-, hc'⟩)
    · exact h.unique hv hv'
    · obtain ⟨rfl, voted⟩ := fresh hc'
      exact Option.some.inj ((old hv).symm.trans voted)
    · obtain ⟨rfl, voted⟩ := fresh hc
      exact Option.some.inj (voted.symm.trans (old hv'))
    · exact Option.some.inj ((fresh hc).2.symm.trans (fresh hc').2)

theorem recorded_ops {V : Votes ID} {n : ID} {hs : HardState ID} {ops : List (StorageOp ID)}
    (h : Recorded V n hs) (lawful : Lawful hs ops) :
    Recorded (V.cast n ops) n (hardStateAfter hs ops) := by
  induction ops generalizing V hs with
  | nil => rw [votes_cast_nil]; exact h
  | cons op ops ih =>
      rw [votes_cast_cons]
      cases op with
      | hardState hs' => exact ih (recorded_hardState h lawful.1) lawful.2
      | entry e | snapshot snapMeta data discardLog =>
          have same : ∀ op : StorageOp ID, (∀ t c, StorageOp.hardState ⟨t, some c⟩ ≠ op) →
              V.cast n [op] = V := by
            intro op other
            funext m t c
            simp [Votes.cast, other]
          rw [same _ (by intro t c; simp)]
          exact ih h lawful

/-- A real round of node `n` with the votes it has counted, its own included. -/
structure Round (cfg : Config ID) [DecidableEq ID] (V : Votes ID) (n : ID)
    (req : RequestVoteRequest ID) (granted : List ID) : Prop where
  own : req.candidateId = n
  self : V n req.term n
  distinct : granted.Nodup
  counted : ∀ v ∈ granted, v ∈ cfg.others n ∧ V v req.term n

/-- What the votes cast so far say about one node. -/
structure Balloted (cfg : Config ID) [DecidableEq ID] (V : Votes ID) (n : ID)
    (p : Process ID σ) : Prop where
  synced : p.storage.hardState = p.raft.hardState
  recorded : Recorded V n p.raft.hardState
  round : ∀ {req granted}, p.raft.campaigning = some (.collecting req granted) →
    req.preVote = false → Round cfg V n req granted
  leads : p.raft.state = .leader → IsMajority cfg.peers fun v => V v p.raft.term n

/-- What they say about a message: a grant was saved before it was sent. -/
def BallotMsg (cfg : Config ID) [DecidableEq ID] (V : Votes ID) : Msg ID → Prop
  | .requestVote dst req => dst ∈ cfg.others req.candidateId
  | .voteReply src _ req resp => src ∈ cfg.others req.candidateId ∧
      (req.preVote = false → resp.voteGranted = true → V src req.term req.candidateId)
  | _ => True

structure Ballots (cfg : Config ID) [DecidableEq ID] (V : Votes ID) (g : Group ID σ) : Prop where
  nodes : ∀ n, Balloted cfg V n (g.procs n)
  msgs : ∀ m ∈ g.net, BallotMsg cfg V m

theorem start_eq {M : StateMachine σ} {s : MemStorage ID} {clock : Nat} {p : Process ID σ}
    (h : Process.start M s clock = some p) :
    ∃ raft machine, Raft.new s = some raft ∧
      (if s.snapMeta.isSome then M.restore s.snapshot else some M.init) = some machine ∧
      p = { raft, storage := s, machine, clock } := by
  obtain ⟨machine, hm, h⟩ := Option.bind_eq_some_iff.mp h
  obtain ⟨raft, hr, rfl⟩ := Option.map_eq_some_iff.mp h
  exact ⟨raft, machine, hr, hm, rfl⟩

section Step

variable [DecidableEq ID] {cfg : Config ID} {V V' : Votes ID} {n : ID} {p p' : Process ID σ}
  {M : StateMachine σ} {T : Transport} {g g' : Group ID σ}

theorem round_mono {req : RequestVoteRequest ID} {granted : List ID}
    (more : ∀ m t c, V m t c → V' m t c) (h : Round cfg V n req granted) :
    Round cfg V' n req granted :=
  ⟨h.own, more _ _ _ h.self, h.distinct, fun v hv =>
    ⟨(h.counted v hv).1, more _ _ _ (h.counted v hv).2⟩⟩

theorem ballotMsg_mono (more : ∀ m t c, V m t c → V' m t c) {m : Msg ID}
    (h : BallotMsg cfg V m) : BallotMsg cfg V' m := by
  cases m with
  | voteReply src dst req resp => exact ⟨h.1, fun real yes => more _ _ _ (h.2 real yes)⟩
  | _ => exact h

/-- A node that took no part keeps its facts while others vote. -/
theorem balloted_other {ops : List (StorageOp ID)} {m : ID} (other : m ≠ n)
    (h : Balloted cfg V m p) : Balloted cfg (V.cast n ops) m p := by
  have same : ∀ t c, V.cast n ops m t c ↔ V m t c := by
    intro t c
    simp [Votes.cast, other]
  refine ⟨h.synced, ⟨?_, ?_, ?_, ?_⟩, ?_, ?_⟩
  · exact fun hv => h.recorded.le ((same _ _).mp hv)
  · exact fun hv => h.recorded.current ((same _ _).mp hv)
  · exact fun hv => (same _ _).mpr (h.recorded.saved hv)
  · exact fun hv hv' => h.recorded.unique ((same _ _).mp hv) ((same _ _).mp hv')
  · exact fun hr real => round_mono (fun _ _ _ => Or.inl) (h.round hr real)
  · exact fun leads => isMajority_mono (h.leads leads) fun _ => Or.inl

/-- A won round is a majority: the voters counted and the node itself. -/
theorem round_majority {req : RequestVoteRequest ID} {granted : List ID}
    (member : n ∈ cfg.peers) (h : Round cfg V n req granted)
    (majority : cfg.quorum ≤ 1 + granted.length) :
    IsMajority cfg.peers fun v => V v req.term n := by
  have others (v : ID) (hv : v ∈ granted) : v ∈ cfg.peers ∧ v ≠ n := by
    simpa [Config.others] using (h.counted v hv).1
  refine ⟨n :: granted, List.nodup_cons.mpr ⟨?_, h.distinct⟩, ?_, ?_, ?_⟩
  · exact fun hn => (others n hn).2 rfl
  · exact List.cons_subset.mpr ⟨member, fun v hv => (others v hv).1⟩
  · simpa [Config.quorum, Nat.add_comm] using majority
  · intro v hv
    rcases List.mem_cons.mp hv with rfl | hv
    · exact h.self
    · exact (h.counted v hv).2

/-- A grant is saved in the term and for the candidate of the request. -/
theorem handleRequestVote_saved (r : Raft ID) (req : RequestVoteRequest ID) (recent : Bool)
    (real : req.preVote = false)
    (yes : (r.handleRequestVote req recent).2.2.voteGranted = true) :
    StorageOp.hardState ⟨req.term, some req.candidateId⟩ ∈
      (r.handleRequestVote req recent).2.1 := by
  have grant (r : Raft ID) (term : r.term = req.term)
      (yes : (r.grantVoteLocked req).2.2.voteGranted = true) :
      StorageOp.hardState ⟨req.term, some req.candidateId⟩ ∈ (r.grantVoteLocked req).2.1 := by
    simp only [Raft.grantVoteLocked] at yes ⊢
    split at yes
    next granted =>
      rw [if_pos granted, ← term]
      exact List.mem_cons_self ..
    · cases yes
  simp only [Raft.handleRequestVote, real, Bool.false_eq_true, if_false] at yes ⊢
  split at yes
  · cases yes
  next current =>
    rw [if_neg current]
    split at yes
    next newer =>
      rw [if_pos newer]
      refine List.mem_append_right _ (grant _ ?_ yes)
      rw [Raft.becomeFollowerLocked_eq]
      exact Nat.max_eq_right newer.le
    next same =>
      rw [if_neg same]
      exact grant r (by omega) yes

theorem solicit_ballots {req : Option (RequestVoteRequest ID)} (own : ∀ q, req = some q → q.candidateId = n) {m : Msg ID}
    (hm : m ∈ req.toList.flatMap fun q => (cfg.others n).map fun peer => Msg.requestVote peer q) :
    BallotMsg cfg V m := by
  obtain ⟨q, hq, hm⟩ := List.mem_flatMap.mp hm
  obtain ⟨peer, hpeer, rfl⟩ := List.mem_map.mp hm
  have := own q (Option.mem_toList.mp hq)
  simpa [BallotMsg, this] using hpeer

variable {a : Action ID} {out : Outcome ID σ} {sent : List (Msg ID)}

theorem sent_ballots (effect : Effect cfg n M T p a out)
    (received : ∀ m, a.input n = some m → BallotMsg cfg V m)
    (next : out.next = some (p', sent)) : ∀ m ∈ sent, BallotMsg cfg (V.cast n out.ops) m := by
  intro m hm
  cases effect with
  | campaign starting =>
      cases next
      refine solicit_ballots (fun q hq => ?_) hm
      simp only [Raft.beginCampaign] at hq
      split at hq
      · cases hq
      · split at hq <;> cases hq <;> rfl
  | wonPreVote round won trial =>
      cases next
      refine solicit_ballots (fun q hq => ?_) hm
      simp only [Raft.afterPreVote] at hq
      split at hq <;> cases hq
      rfl
  | wonElection round won real later =>
      rw [(tryLock_next next).2.2] at hm
      cases hm
  | @requestVote req recent =>
      cases next
      rw [List.mem_singleton.mp hm]
      refine ⟨received _ rfl, fun real yes => Or.inr ⟨rfl, ?_⟩⟩
      exact handleRequestVote_saved p.raft req recent real yes
  | send built later =>
      cases next
      split at hm
      · cases ‹Call ID› <;> simp [Call.messages] at hm <;> subst hm <;> trivial
      · cases hm
  | appendEntries =>
      obtain ⟨x, handled, hx⟩ := Option.map_eq_some_iff.mp next
      cases hx
      rw [List.mem_singleton.mp hm]
      trivial
  | installSnapshot | sendTimeoutNow =>
      cases next
      rw [List.mem_singleton.mp hm]
      trivial
  | appendProposals nonempty there batch =>
      rw [(tryLock_next next).2.2] at hm
      cases hm
  | replicatePanic | takePanic | restorePanic | applyPanic | finishPanic => cases next
  | _ => cases next; cases hm

theorem balloted_run {s : MemStorage ID} (member : n ∈ cfg.peers) (h : Balloted cfg V n p)
    (effect : Effect cfg n M T p a out)
    (received : ∀ m, a.input n = some m → BallotMsg cfg V m)
    (stored : p.storage.performAll out.ops = some s) (next : out.next = some (p', sent)) :
    Balloted cfg (V.cast n out.ops) n { p' with storage := s } := by
  have casts := effect_casts effect
  have after : hardStateAfter p.raft.hardState out.ops = p'.raft.hardState :=
    casts.after p'.raft (by rw [Outcome.raft, next]; rfl)
  have more : ∀ m t c, V m t c → V.cast n out.ops m t c := fun _ _ _ => Or.inl
  have kept (leads : p.raft.state = .leader) {t : Nat} (term : t = p.raft.term) :
      IsMajority cfg.peers fun v => V.cast n out.ops v t n :=
    isMajority_mono (h.leads leads) fun v hv => more v t n (term ▸ hv)
  have turn := effect_turn effect next
  refine ⟨?_, after ▸ recorded_ops h.recorded casts.lawful, ?_, ?_⟩
  · rw [performAll_hardState _ _ _ stored, h.synced]
    exact after
  · intro req granted hr real
    cases turn with
    | calm calm => exact round_mono more (h.round (calm.campaigning ▸ hr) real)
    | idle trial state term => rw [trial req granted hr] at real; cases real
    | stood req' round own saved state =>
        cases round.symm.trans hr
        exact ⟨own, Or.inr ⟨rfl, saved⟩, List.nodup_nil, fun v hv => by cases hv⟩
    | counted peer req' resp old answered yes first before round leads =>
        cases round.symm.trans hr
        obtain ⟨own, self, distinct, counted⟩ := h.round before real
        subst answered
        obtain ⟨src, cast⟩ := received _ rfl
        refine ⟨own, more _ _ _ self, List.nodup_cons.mpr ⟨first, distinct⟩, fun v hv => ?_⟩
        rcases List.mem_cons.mp hv with rfl | hv
        · exact ⟨own ▸ src, more _ _ _ (own ▸ cast real yes)⟩
        · exact ⟨(counted v hv).1, more _ _ _ (counted v hv).2⟩
    | won req' granted' round majority real' ended term => rw [ended] at hr; cases hr
  · intro leads
    cases turn with
    | calm calm => exact kept (calm.leads leads).1 (calm.leads leads).2
    | idle trial state term => exact kept (state ▸ leads) term
    | stood req round own saved state => rw [state] at leads; cases leads
    | counted peer req resp old answered yes first before round led =>
        exact kept (led leads).1 (led leads).2
    | won req granted round majority real ended term =>
        have votes := round_majority member (h.round round real) majority
        exact isMajority_mono votes fun v hv => more _ _ _ (term ▸ hv)

theorem balloted_crash {s : MemStorage ID} {ops : List (StorageOp ID)} {clock : Nat}
    (h : Balloted cfg V n p) (lawful : Lawful p.raft.hardState ops)
    (stored : p.storage.performAll ops = some s)
    (restarted : Process.start M s clock = some p') : Balloted cfg (V.cast n ops) n p' := by
  obtain ⟨raft, machine, hr, -, rfl⟩ := start_eq restarted
  obtain ⟨rlog, -, rfl⟩ := Option.map_eq_some_iff.mp hr
  have after : s.hardState = hardStateAfter p.raft.hardState ops := by
    rw [performAll_hardState _ _ _ stored, h.synced]
  exact
    { synced := rfl
      recorded := after ▸ recorded_ops h.recorded lawful
      round := fun hr => by cases hr
      leads := fun leads => by cases leads }

theorem ballots_update (h : Ballots cfg V g) {ops : List (StorageOp ID)}
    (acted : Balloted cfg (V.cast n ops) n p')
    (sound : ∀ m ∈ sent, BallotMsg cfg (V.cast n ops) m) :
    Ballots cfg (V.cast n ops)
      { procs := Function.update g.procs n p', net := g.net ++ sent } := by
  refine ⟨fun m => ?_, fun m hm => ?_⟩
  · by_cases same : m = n
    · subst same
      simpa using acted
    · simpa [same] using balloted_other same (h.nodes m)
  · rcases List.mem_append.mp hm with old | new
    · exact ballotMsg_mono (fun _ _ _ => Or.inl) (h.msgs m old)
    · exact sound m new

theorem ballots_run {s : MemStorage ID} (h : Ballots cfg V g)
    (enabled : Enabled cfg M T g n a out) (stored : (g.procs n).storage.performAll out.ops = some s)
    (next : out.next = some (p', sent)) :
    Ballots cfg (V.cast n out.ops)
      { procs := Function.update g.procs n { p' with storage := s }, net := g.net ++ sent } := by
  have effect := exec_effect enabled.exec
  have received : ∀ m, a.input n = some m → BallotMsg cfg V m :=
    fun m hm => h.msgs m (enabled.received m hm)
  exact ballots_update h
    (balloted_run enabled.member (h.nodes n) effect received stored next)
    (sent_ballots effect received next)

theorem interrupted_lawful {ops : List (StorageOp ID)}
    (interrupted : Interrupted cfg M T g n ops) : Lawful (g.procs n).raft.hardState ops := by
  cases interrupted with
  | idle member => trivial
  | during enabled begun => exact lawful_begun (effect_casts (exec_effect enabled.exec)).lawful begun

theorem ballots_crash {s : MemStorage ID} {ops : List (StorageOp ID)} (h : Ballots cfg V g)
    (interrupted : Interrupted cfg M T g n ops)
    (stored : (g.procs n).storage.performAll ops = some s)
    (restarted : Process.start M s (g.procs n).clock = some p') :
    Ballots cfg (V.cast n ops) { g with procs := Function.update g.procs n p' } := by
  have acted := balloted_crash (h.nodes n) (interrupted_lawful interrupted) stored restarted
  have silent : ∀ m ∈ ([] : List (Msg ID)), BallotMsg cfg (V.cast n ops) m := by
    intro m hm
    cases hm
  simpa using ballots_update h acted silent

theorem ballots_step (h : Ballots cfg V g) (step : Group.Step cfg M T g g') :
    ∃ V' : Votes ID, (∀ m t c, V m t c → V' m t c) ∧ Ballots cfg V' g' := by
  obtain ⟨n, step⟩ := step
  cases step with
  | run enabled stored next => exact ⟨_, fun _ _ _ => Or.inl, ballots_run h enabled stored next⟩
  | crash interrupted stored restarted =>
      exact ⟨_, fun _ _ _ => Or.inl, ballots_crash h interrupted stored restarted⟩

theorem ballots_steps (h : Ballots cfg V g) (steps : Group.Steps cfg M T g g') :
    ∃ V' : Votes ID, (∀ m t c, V m t c → V' m t c) ∧ Ballots cfg V' g' := by
  induction steps with
  | refl => exact ⟨V, fun _ _ _ => id, h⟩
  | tail _ step ih =>
      obtain ⟨V₁, more₁, h₁⟩ := ih
      obtain ⟨V₂, more₂, h₂⟩ := ballots_step h₁ step
      exact ⟨V₂, fun m t c hv => more₂ m t c (more₁ m t c hv), h₂⟩

theorem ballots_initial (M : StateMachine σ) :
    Ballots cfg (fun _ _ _ => False) (Group.initial M : Group ID σ) where
  nodes _ :=
    { synced := rfl
      recorded := ⟨fun h => h.elim, fun h => h.elim, fun h => (by cases h), fun h => h.elim⟩
      round := fun h => by cases h
      leads := fun h => by cases h }
  msgs _ hm := by cases hm

theorem reachable_ballots (h : Group.Reachable cfg M T g) : ∃ V : Votes ID, Ballots cfg V g := by
  obtain ⟨V, -, ballots⟩ := ballots_steps (ballots_initial M) h
  exact ⟨V, ballots⟩

/-- Election safety: two nodes that lead in one term, at whatever points of a run,
are one node. -/
theorem election_safety (cfg : Config ID) (M : StateMachine σ) (T : Transport)
    (g g' : Group ID σ) (reachable : Group.Reachable cfg M T g)
    (steps : Group.Steps cfg M T g g') (n m : ID)
    (leads : (g.procs n).raft.state = .leader) (leads' : (g'.procs m).raft.state = .leader)
    (term : (g.procs n).raft.term = (g'.procs m).raft.term) : n = m := by
  obtain ⟨V, ballots⟩ := reachable_ballots reachable
  obtain ⟨V', more, ballots'⟩ := ballots_steps ballots steps
  have votes := isMajority_mono ((ballots.nodes n).leads leads) (fun v => more v _ n)
  have votes' := (ballots'.nodes m).leads leads'
  rw [← term] at votes'
  obtain ⟨v, hn, hm⟩ := isMajority_meets votes votes'
  exact (ballots'.nodes v).recorded.unique hn hm

end Step

/-- A group of three in which node 0 campaigns with a pre-vote round and is elected
with the vote of node 1. -/
def electedRun : List (Nat × Action Nat) :=
  let trial : RequestVoteRequest Nat :=
    { term := 1, candidateId := 0, lastLogIndex := 0, lastLogTerm := 0, preVote := true }
  let real : RequestVoteRequest Nat := { trial with preVote := false }
  [(0, .election (.tick 0 true)), (0, .election .campaign),
    (1, .election (.requestVote trial false)),
    (0, .election (.voteReply 1 trial { term := 0, voteGranted := true })),
    (0, .election (.countVotes 0)),
    (1, .election (.requestVote real false)),
    (0, .election (.voteReply 1 real { term := 1, voteGranted := true })),
    (0, .election (.countVotes 1))]

/-- A machine without state, for runs in which nothing is applied. -/
def idleMachine : StateMachine Unit where
  init := ()
  apply := fun _ _ _ => some ((), [])
  snapshot := fun _ data => data = []
  restore := fun _ => some ()

def trio : Config Nat where
  peers := [0, 1, 2]
  distinct := by decide
  electionTimeoutMin := 300
  electionTimeoutMax := 600
  snapshotThreshold := 0
  maxAppendEntries := 512
  maxProposalBatch := 256

theorem election_safety_elected :
    ∃ g : Group Nat Unit, Group.Reachable trio idleMachine ⟨false⟩ g ∧
      (g.procs 0).raft.state = .leader ∧
      ∀ m, (g.procs m).raft.state = .leader → (g.procs m).raft.term = 1 → m = 0 := by
  obtain ⟨g, hg, leads, term⟩ : ∃ g, Group.play trio idleMachine ⟨false⟩ (Group.initial idleMachine)
      electedRun = some g ∧ (g.procs 0).raft.state = .leader ∧ (g.procs 0).raft.term = 1 :=
    ⟨_, rfl, rfl, rfl⟩
  have reachable : Group.Reachable trio idleMachine ⟨false⟩ g := Group.play_steps hg
  refine ⟨g, reachable, leads, fun m leads' term' => ?_⟩
  exact (election_safety trio idleMachine ⟨false⟩ g g reachable .refl 0 m leads leads'
    (term.trans term'.symm)).symm

end EdgeKV
