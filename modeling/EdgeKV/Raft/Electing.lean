import EdgeKV.Raft.Acting
import EdgeKV.Raft.Isolation
import EdgeKV.Reaching

/-!
Nodes that are up can elect one of them, whatever has happened before. Those that lead without a
majority step down and those that wait in a round give it up; the node with the latest log adopts
the latest term from the answer to a first request, then wins a pre-vote round and an election.
-/
namespace EdgeKV

variable {ID σ : Type}

namespace Group

/-- The locked state of a node. -/
abbrev raft (g : Group ID σ) (n : ID) : Raft ID := (g.procs n).raft

variable [DecidableEq ID]

/-- Node `n` has moved on to `p`, but for what it has stored, and has sent some messages. -/
structure Acted (g : Group ID σ) (n : ID) (p : Process ID σ) (sent : List (Msg ID))
    (g' : Group ID σ) : Prop where
  own : ∃ s, g'.procs n = { p with storage := s }
  rest : ∀ m, m ≠ n → g'.procs m = g.procs m
  net : g'.net = g.net ++ sent

variable (cfg : Config ID) (M : StateMachine σ) (T : Transport)

/-- One of the nodes that are up takes an action. -/
def Acts (up : ID → Prop) (g g' : Group ID σ) : Prop :=
  ∃ n act, up n ∧ Performs cfg M T n act g g'

/-- The nodes that are up can bring the group to a state with the property. -/
abbrev Can (up : ID → Prop) (g : Group ID σ) (P : Group ID σ → Prop) : Prop :=
  CanReach (Reachable cfg M T) (Acts cfg M T up) g P

end Group

section Acts

variable [DecidableEq ID] {cfg : Config ID} {M : StateMachine σ} {T : Transport} {up : ID → Prop}
  {g g' : Group ID σ} {n m : ID} {P : Group ID σ → Prop}

omit [DecidableEq ID] in
theorem Group.Acted.raft {p : Process ID σ} {sent : List (Msg ID)} (h : g.Acted n p sent g') :
    g'.raft n = p.raft := by
  obtain ⟨s, own⟩ := h.own
  rw [Group.raft, own]

omit [DecidableEq ID] in
theorem Group.Acted.others {p : Process ID σ} {sent : List (Msg ID)} (h : g.Acted n p sent g')
    (m : ID) (other : m ≠ n) : g'.raft m = g.raft m := by
  rw [Group.raft, h.rest m other]

theorem acts_reachable (reachable : Group.Reachable cfg M T g) (acts : Group.Acts cfg M T up g g') :
    Group.Reachable cfg M T g' := by
  obtain ⟨n, act, -, performs⟩ := acts
  exact reachable.tail ⟨n, Group.performs_step performs⟩

/-- An action that is enabled and does not panic goes through: the storage takes what is to be
saved. -/
theorem performs_acted (honours : T.HonoursContext) (reachable : Group.Reachable cfg M T g)
    (member : n ∈ cfg.peers) (act : Action ID) (out : Outcome ID σ) {p : Process ID σ}
    {sent : List (Msg ID)} (exec : (g.procs n).exec cfg n M T act = some out)
    (next : out.next = some (p, sent)) (received : ∀ m, act.input n = some m → m ∈ g.net)
    (plain : act.captures = false) :
    ∃ g', Group.Performs cfg M T n act g g' ∧ g.Acted n p sent g' := by
  have enabled : Enabled cfg M T g n act out := by
    refine ⟨member, exec, received, ?_⟩
    unfold Action.Genuine
    split
    · cases plain
    · trivial
  obtain ⟨s, performs⟩ := enabled_performs honours reachable enabled next
  exact ⟨_, performs, ⟨s, Function.update_self ..⟩, fun m other => Function.update_of_ne other ..,
    rfl⟩

/-- A node that is up receives a message. -/
theorem can_receive (honours : T.HonoursContext) (running : up n) (member : n ∈ cfg.peers)
    (act : Action ID) (out : Outcome ID σ) {p : Process ID σ} {sent : List (Msg ID)} {msg : Msg ID}
    (exec : (g.procs n).exec cfg n M T act = some out) (next : out.next = some (p, sent))
    (input : act.input n = some msg) (there : msg ∈ g.net) (plain : act.captures = false) :
    Group.Can cfg M T up g (g.Acted n p sent) := by
  intro reachable
  obtain ⟨g', performs, acted⟩ := performs_acted honours reachable member act out exec next
    (fun m received => Option.some.inj (input.symm.trans received) ▸ there) plain
  have acts : Group.Acts cfg M T up g g' := ⟨n, act, running, performs⟩
  exact ⟨g', .single acts, acts_reachable reachable acts, acted⟩

/-- A node that is up takes an action of its own. -/
theorem can_act (honours : T.HonoursContext) (running : up n) (member : n ∈ cfg.peers)
    (act : Action ID) (out : Outcome ID σ) {p : Process ID σ} {sent : List (Msg ID)}
    (exec : (g.procs n).exec cfg n M T act = some out) (next : out.next = some (p, sent))
    (input : act.input n = none) (plain : act.captures = false) :
    Group.Can cfg M T up g (g.Acted n p sent) := by
  intro reachable
  obtain ⟨g', performs, acted⟩ := performs_acted honours reachable member act out exec next
    (fun m received => absurd (input.symm.trans received) (Option.some_ne_none m).symm) plain
  have acts : Group.Acts cfg M T up g g' := ⟨n, act, running, performs⟩
  exact ⟨g', .single acts, acts_reachable reachable acts, acted⟩

end Acts

/-- A node that neither leads nor campaigns. -/
structure Raft.Resting (r : Raft ID) : Prop where
  unled : r.state ≠ .leader
  idle : r.campaigning = none
  running : r.stopped = false

section Rest

variable [DecidableEq ID] {cfg : Config ID} {M : StateMachine σ} {T : Transport} {up : ID → Prop}
  {g : Group ID σ} {n : ID} (honours : T.HonoursContext)
include honours

/-- A leader of a group of several steps down at a tick that is late enough. -/
theorem can_stepDown (many : 1 < cfg.quorum) (member : n ∈ cfg.peers) (alive : up n)
    (running : (g.raft n).stopped = false) :
    Group.Can cfg M T up g fun g' => (g'.raft n).state ≠ .leader ∧ (g'.raft n).stopped = false ∧
      ∀ m, m ≠ n → g'.raft m = g.raft m := by
  by_cases leads : (g.raft n).state = .leader
  · refine .assuming fun reachable => ?_
    have old (v : ID) : (g.raft n).ackedSendTime v <
        (g.procs n).clock + cfg.electionTimeoutMax + 1 - cfg.electionTimeoutMax := by
      have heard : (g.raft n).ackedSendTime v ≤ (g.procs n).clock :=
        (reachable_timed reachable).acked n v
      omega
    refine (can_act honours alive member
      (.election (.tick ((g.procs n).clock + cfg.electionTimeoutMax + 1) true))
      ((g.procs n).lock ((g.raft n).becomeFollowerLocked (g.raft n).term none) []) ?_ rfl
      rfl rfl).mono fun g' acted => ?_
    · simp only [Process.exec, Process.execElection, running, leads, Raft.checkQuorumLocked,
        no_quorumAck many old, Bool.false_eq_true, if_false, if_true]
    · refine ⟨?_, ?_, acted.others⟩
      · rw [acted.raft, Raft.becomeFollowerLocked_eq]
        exact Role.noConfusion
      · rw [acted.raft, Raft.becomeFollowerLocked_eq]
        exact running
  · exact .here ⟨leads, running, fun m _ => rfl⟩

/-- A round that waits for votes may be given up. -/
theorem can_giveUp (member : n ∈ cfg.peers) (alive : up n) {req : RequestVoteRequest ID}
    {granted : List ID} (round : (g.raft n).campaigning = some (.collecting req granted)) :
    Group.Can cfg M T up g fun g' => g'.raft n = (g.raft n).endCampaign ∧
      ∀ m, m ≠ n → g'.raft m = g.raft m := by
  refine (can_act honours alive member (.election .abandonCampaign)
    ((g.procs n).lock ((g.raft n).endCampaign, []) []) ?_ rfl rfl rfl).mono fun g' acted => ?_
  · simp only [Process.exec, Process.execElection, round]
  · exact ⟨acted.raft, acted.others⟩

/-- A node that does not lead comes to rest: a campaign that has begun asks for votes, and stops
waiting for them. -/
theorem can_rest (member : n ∈ cfg.peers) (alive : up n) (unled : (g.raft n).state ≠ .leader)
    (running : (g.raft n).stopped = false) :
    Group.Can cfg M T up g fun g' => (g'.raft n).Resting ∧ ∀ m, m ≠ n → g'.raft m = g.raft m := by
  cases round : (g.raft n).campaigning with
  | none => exact .here ⟨⟨unled, round, running⟩, fun m _ => rfl⟩
  | some c =>
      cases c with
      | collecting req granted =>
          refine (can_giveUp honours member alive round).mono ?_
          rintro g' ⟨own, others⟩
          refine ⟨?_, others⟩
          rw [own]
          exact ⟨unled, rfl, running⟩
      | starting skipPreVote =>
          -- the first region of the campaign leaves a round, with or without a pre-vote
          obtain ⟨r, ops, req, began, round', unled', running'⟩ : ∃ r ops req,
              (g.raft n).beginCampaign n skipPreVote = (r, ops, some req) ∧
              r.campaigning = some (.collecting req []) ∧ r.state ≠ .leader ∧
              r.stopped = false := by
            simp only [Raft.beginCampaign, running, unled, Bool.false_eq_true, or_self, if_false]
            cases skipPreVote with
            | false => exact ⟨_, _, _, rfl, rfl, unled, rfl⟩
            | true => exact ⟨_, _, _, rfl, rfl, Role.noConfusion, running⟩
          refine (can_act honours alive member (.election .campaign)
            ((g.procs n).solicit (cfg.others n) (r, ops, some req)) ?_ rfl rfl rfl).andThen
            fun g₁ acted => ?_
          · simp only [Process.exec, Process.execElection, round, began]
          · have waits : (g₁.raft n).campaigning = some (.collecting req []) := by
              rw [acted.raft]
              exact round'
            refine (can_giveUp honours member alive waits).mono ?_
            rintro g' ⟨own, others⟩
            refine ⟨?_, fun m other => (others m other).trans (acted.others m other)⟩
            rw [own, acted.raft]
            exact ⟨unled', rfl, running'⟩

/-- All nodes that are up come to rest, if there are several nodes in the group. -/
theorem can_rest_all (many : 1 < cfg.quorum) (nodes : List ID) (members : nodes ⊆ cfg.peers)
    (alive : ∀ n ∈ nodes, up n) (running : ∀ n ∈ nodes, (g.raft n).stopped = false) :
    Group.Can cfg M T up g fun g' => ∀ n ∈ nodes, (g'.raft n).Resting := by
  refine (canReach_all (fun g => ∀ n ∈ nodes, (g.raft n).stopped = false)
    (fun n g => (g.raft n).Resting) nodes (fun n there g running => ?_) running).mono
    fun g' reached => reached.2
  refine (can_stepDown honours many (members there) (alive n there) (running n there)).andThen ?_
  rintro g₁ ⟨unled, running₁, others₁⟩
  refine (can_rest honours (members there) (alive n there) unled running₁).mono ?_
  rintro g₂ ⟨resting, others₂⟩
  have same {m : ID} (other : m ≠ n) : g₂.raft m = g.raft m :=
    (others₂ m other).trans (others₁ m other)
  refine ⟨fun m hm => ?_, resting, fun m rests => ?_⟩
  · by_cases own : m = n
    · subst own
      exact resting.running
    · rw [same own]
      exact running m hm
  · by_cases own : m = n
    · subst own
      exact resting
    · rw [same own]
      exact rests

end Rest

/-- Node `c` collects votes for `req` and has those of `granted`; apart from these answers the
nodes are as in `rafts`, and everybody has been asked. -/
structure Canvassed [DecidableEq ID] (cfg : Config ID) (c : ID) (rafts : ID → Raft ID)
    (req : RequestVoteRequest ID) (granted : List ID) (g : Group ID σ) : Prop where
  round : g.raft c = { rafts c with campaigning := some (.collecting req granted) }
  voted : ∀ m ∈ granted, m ≠ c ∧ g.raft m = ((rafts m).handleRequestVote req false).1
  rest : ∀ m, m ≠ c → m ∉ granted → g.raft m = rafts m
  asked : ∀ m ∈ cfg.others c, .requestVote m req ∈ g.net

section Rounds

theorem handleVoteReply_granted [DecidableEq ID] {r : Raft ID} {req : RequestVoteRequest ID}
    {granted : List ID} {m : ID} {resp : RequestVoteResponse}
    (round : r.campaigning = some (.collecting req granted)) (current : resp.term ≤ r.term)
    (yes : resp.voteGranted = true) (fresh : m ∉ granted) :
    (r.handleVoteReply m req resp).1 =
      { r with campaigning := some (.collecting req (m :: granted)) } := by
  simp only [Raft.handleVoteReply, Nat.not_lt_of_le current, if_false, round, yes, fresh,
    not_false_eq_true, and_self, if_true]

variable [DecidableEq ID] {cfg : Config ID} {M : StateMachine σ} {T : Transport} {up : ID → Prop}
  {g : Group ID σ} {c : ID} (honours : T.HonoursContext) (member : c ∈ cfg.peers) (alive : up c)
include honours member alive

/-- The election deadline of a node at rest passes. -/
theorem can_timeOut (resting : (g.raft c).Resting) : Group.Can cfg M T up g fun g' =>
    g'.raft c = { g.raft c with campaigning := some (.starting false) } ∧
      ∀ m, m ≠ c → g'.raft m = g.raft m := by
  refine (can_act honours alive member (.election (.tick 0 true))
    ((g.procs c).lock ({ g.raft c with campaigning := some (.starting false) }, []) []) ?_ rfl
    rfl rfl).mono fun g' acted => ?_
  · simp [Process.exec, Process.execElection, resting.running, resting.unled, Raft.electionTimeout,
      resting.idle]
  · exact ⟨acted.raft, acted.others⟩

/-- A campaign begins with a request for pre-votes. -/
theorem can_ask (resting : (g.raft c).Resting) :
    Group.Can cfg M T up g (Canvassed cfg c g.raft
      ((g.raft c).voteRequestLocked c ((g.raft c).term + 1) true) []) := by
  refine (can_timeOut honours member alive resting).andThen ?_
  rintro g₁ ⟨own, others⟩
  generalize asked : (g.raft c).voteRequestLocked c ((g.raft c).term + 1) true = req
  refine (can_act honours alive member (.election .campaign)
    ((g₁.procs c).solicit (cfg.others c)
      ({ g.raft c with campaigning := some (.collecting req []) }, [], some req)) ?_ rfl
    rfl rfl).mono fun g' acted => ?_
  · have begins : (g₁.procs c).raft = { g.raft c with campaigning := some (.starting false) } := own
    simp [Process.exec, Process.execElection, begins, Raft.beginCampaign, resting.running,
      resting.unled, Raft.voteRequestLocked, ← asked]
  · refine ⟨acted.raft, List.forall_mem_nil _, fun m other _ => ?_, fun m there => ?_⟩
    · rw [acted.others m other, others m other]
    · simpa [acted.net] using Or.inr there

variable {rafts : ID → Raft ID} {req : RequestVoteRequest ID} {granted : List ID}

/-- One of the nodes that were asked answers, and the answer arrives. -/
theorem can_answer (h : Canvassed cfg c rafts req granted g) (own : req.candidateId = c) {m : ID}
    (asked : m ∈ cfg.others c) (alive' : up m) :
    Group.Can cfg M T up g fun g' =>
      g'.raft c = ((g.raft c).handleVoteReply m req
        ((g.raft m).handleRequestVote req false).2.2).1 ∧
      g'.raft m = ((g.raft m).handleRequestVote req false).1 ∧
      (∀ q, q ≠ c → q ≠ m → g'.raft q = g.raft q) ∧ g.net ⊆ g'.net := by
  obtain ⟨there, apart⟩ := List.mem_filter.mp asked
  have apart : m ≠ c := by simpa using apart
  generalize handled : (g.raft m).handleRequestVote req false = result
  refine (can_receive honours alive' there (.election (.requestVote req false))
    ((g.procs m).lock (result.1, result.2.1) [.voteReply m c req result.2.2]) ?_ rfl rfl
    (h.asked m asked) rfl).andThen fun g₁ acted₁ => ?_
  · have handled : (g.procs m).raft.handleRequestVote req false = result := handled
    simp only [Process.exec, Process.execElection, handled, own]
  refine (can_receive honours alive member (.election (.voteReply m req result.2.2))
    ((g₁.procs c).lock ((g₁.raft c).handleVoteReply m req result.2.2) []) rfl rfl rfl ?_ rfl).mono
    fun g₂ acted₂ => ?_
  · rw [acted₁.net]
    exact List.mem_append_right _ (List.mem_singleton_self _)
  · refine ⟨?_, ?_, fun q other other' => ?_, ?_⟩
    · rw [acted₂.raft, ← acted₁.others c apart.symm]
    · rw [acted₂.others m apart, acted₁.raft]
    · rw [acted₂.others q other, acted₁.others q other']
    · rw [acted₂.net, acted₁.net, List.append_nil]
      exact List.subset_append_left ..

/-- A vote is given and counted. -/
theorem can_vote (h : Canvassed cfg c rafts req granted g) (own : req.candidateId = c) {m : ID}
    (asked : m ∈ cfg.others c) (alive' : up m) (fresh : m ∉ granted)
    (yes : ((rafts m).handleRequestVote req false).2.2.voteGranted = true)
    (current : ((rafts m).handleRequestVote req false).2.2.term ≤ (rafts c).term) :
    Group.Can cfg M T up g (Canvassed cfg c rafts req (m :: granted)) := by
  have apart : m ≠ c := by simpa using (List.mem_filter.mp asked).2
  have before : g.raft m = rafts m := h.rest m apart fresh
  refine (can_answer honours member alive h own asked alive').mono ?_
  rintro g' ⟨counted, voted, others, sent⟩
  have round : (g.raft c).campaigning = some (.collecting req granted) := by rw [h.round]
  have same : (g.raft c).term = (rafts c).term := by rw [h.round]
  refine ⟨?_, fun q there => ?_, fun q other unasked => ?_,
    fun q there => sent (h.asked q there)⟩
  · rw [counted, before, handleVoteReply_granted round (same ▸ current) yes fresh, h.round]
  · rcases List.mem_cons.mp there with rfl | there
    · exact ⟨apart, by rw [voted, before]⟩
    · obtain ⟨other, handled⟩ := h.voted q there
      refine ⟨other, (others q other fun same => fresh (same ▸ there)).trans handled⟩
  · obtain ⟨differs, unasked⟩ := not_or.mp (mt List.mem_cons.mpr unasked)
    rw [others q other differs, h.rest q other unasked]

/-- All of a list of willing nodes vote. -/
theorem can_collect (voters : List ID) (h : Canvassed cfg c rafts req granted g)
    (own : req.candidateId = c) (distinct : voters.Nodup) (fresh : ∀ m ∈ voters, m ∉ granted)
    (asked : voters ⊆ cfg.others c) (alive' : ∀ m ∈ voters, up m)
    (willing : ∀ m ∈ voters, ((rafts m).handleRequestVote req false).2.2.voteGranted = true ∧
      ((rafts m).handleRequestVote req false).2.2.term ≤ (rafts c).term) :
    Group.Can cfg M T up g (Canvassed cfg c rafts req (voters.reverse ++ granted)) := by
  induction voters generalizing g granted with
  | nil => exact .here h
  | cons m voters ih =>
      obtain ⟨new, distinct⟩ := List.nodup_cons.mp distinct
      obtain ⟨yes, current⟩ := willing m (List.mem_cons_self ..)
      refine (can_vote honours member alive h own (asked (List.mem_cons_self ..))
        (alive' m (List.mem_cons_self ..)) (fresh m (List.mem_cons_self ..)) yes current).andThen
        fun g' h' => ?_
      refine (ih h' distinct (fun q there => ?_)
        (fun q there => asked (List.mem_cons_of_mem m there))
        (fun q there => alive' q (List.mem_cons_of_mem m there))
        fun q there => willing q (List.mem_cons_of_mem m there)).mono fun g'' h'' => ?_
      · intro known
        rcases List.mem_cons.mp known with rfl | known
        · exact new there
        · exact fresh q (List.mem_cons_of_mem m there) known
      · rw [List.reverse_cons, List.append_assoc]
        exact h''

end Rounds

/-- The candidate that `startElection` makes of a node. -/
def Raft.standing (r : Raft ID) (self : ID) : Raft ID :=
  { r with term := r.term + 1, votedFor := some self, state := .candidate, leaderID := none }

section Elections

variable [DecidableEq ID]

/-- A node that does not lead, and is not ahead in any way, would vote for the sender. -/
theorem handleRequestVote_trial {r : Raft ID} (req : RequestVoteRequest ID)
    (trial : req.preVote = true) (unled : r.state ≠ .leader) (behind : r.term < req.term)
    (upToDate : r.logUpToDateLocked req.lastLogIndex req.lastLogTerm = true) :
    r.handleRequestVote req false = (r, [], { term := r.term, voteGranted := true }) := by
  simp [Raft.handleRequestVote, trial, Raft.handlePreVoteLocked, Nat.not_le_of_lt behind, unled,
    upToDate]

/-- It does vote in a later term, and moves to that term. -/
theorem handleRequestVote_real {r : Raft ID} (req : RequestVoteRequest ID)
    (real : req.preVote = false) (behind : r.term < req.term)
    (upToDate : r.logUpToDateLocked req.lastLogIndex req.lastLogTerm = true) :
    (r.handleRequestVote req false).2.2 = { term := req.term, voteGranted := true } ∧
      (r.handleRequestVote req false).1.term = req.term := by
  obtain ⟨f, ops, follows, term, vote, same⟩ : ∃ f ops,
      r.becomeFollowerLocked req.term none = (f, ops) ∧ f.term = req.term ∧ f.votedFor = none ∧
      f.logUpToDateLocked req.lastLogIndex req.lastLogTerm = true := by
    rw [Raft.becomeFollowerLocked_eq]
    exact ⟨_, _, rfl, Nat.max_eq_right behind.le, if_pos behind, upToDate⟩
  simp only [Raft.handleRequestVote, real, Nat.not_lt_of_lt behind, behind, Bool.false_eq_true,
    if_false, if_true, follows, Raft.grantVoteLocked, vote, same, true_or, and_self, term]

variable {cfg : Config ID} {M : StateMachine σ} {T : Transport} {up : ID → Prop}
  {g : Group ID σ} {c : ID} (honours : T.HonoursContext) (member : c ∈ cfg.peers) (alive : up c)
include honours member alive

/-- The answer to a first request takes a node to the term of the node that gives it. -/
theorem can_learn (resting : (g.raft c).Resting) {m : ID} (other : m ∈ cfg.others c) (alive' : up m)
    (ahead : (g.raft c).term < (g.raft m).term) :
    Group.Can cfg M T up g fun g' => (g'.raft c).Resting ∧ (g'.raft c).term = (g.raft m).term ∧
      (g'.raft c).rlog = (g.raft c).rlog ∧ ∀ q, q ≠ c → g'.raft q = g.raft q := by
  have apart : m ≠ c := by simpa using (List.mem_filter.mp other).2
  refine (can_ask honours member alive resting).andThen fun g₁ h => ?_
  refine (can_answer honours member alive h rfl other alive').andThen ?_
  rintro g₂ ⟨told, answered, others, -⟩
  have before : g₁.raft m = g.raft m := h.rest m apart List.not_mem_nil
  -- whatever the answer is, it carries the later term
  obtain ⟨resp, handled, term⟩ : ∃ resp, (g.raft m).handleRequestVote
      ((g.raft c).voteRequestLocked c ((g.raft c).term + 1) true) false = (g.raft m, [], resp) ∧
      resp.term = (g.raft m).term := by
    refine ⟨_, rfl, ?_⟩
    simp only [Raft.handlePreVoteLocked]
    split
    · rfl
    · split <;> rfl
  rw [before, handled] at told answered
  obtain ⟨granted, round, unled, running, later, rlog⟩ : ∃ granted,
      (g₂.raft c).campaigning = some (.collecting
        ((g.raft c).voteRequestLocked c ((g.raft c).term + 1) true) granted) ∧
      (g₂.raft c).state ≠ .leader ∧ (g₂.raft c).stopped = false ∧
      (g₂.raft c).term = (g.raft m).term ∧ (g₂.raft c).rlog = (g.raft c).rlog := by
    rw [told, h.round]
    simp only [Raft.handleVoteReply, term, ahead, if_true, Raft.becomeFollowerLocked_eq]
    split
    · exact ⟨_, rfl, Role.noConfusion, resting.running, Nat.max_eq_right ahead.le, rfl⟩
    · exact ⟨_, rfl, Role.noConfusion, resting.running, Nat.max_eq_right ahead.le, rfl⟩
  refine (can_giveUp honours member alive round).mono ?_
  rintro g₃ ⟨own, others₃⟩
  refine ⟨?_, ?_, ?_, fun q differs => ?_⟩
  · rw [own]
    exact ⟨unled, rfl, running⟩
  · rw [own]
    exact later
  · rw [own]
    exact rlog
  · rw [others₃ q differs]
    by_cases same : q = m
    · rw [same, answered]
    · rw [others q differs same, h.rest q differs List.not_mem_nil]

variable {rafts : ID → Raft ID} {req : RequestVoteRequest ID} {granted : List ID}

/-- A won pre-vote round is followed by an election, if nothing has changed. -/
theorem can_stand (h : Canvassed cfg c rafts req granted g) (trial : req.preVote = true)
    (won : cfg.quorum ≤ 1 + granted.length) (unled : (rafts c).state ≠ .leader)
    (running : (rafts c).stopped = false) (term : (rafts c).term + 1 = req.term)
    (unmoved : ∀ m ∈ granted, ((rafts m).handleRequestVote req false).1 = rafts m) :
    Group.Can cfg M T up g (Canvassed cfg c (Function.update rafts c ((rafts c).standing c))
      (((rafts c).standing c).voteRequestLocked c ((rafts c).term + 1) false) []) := by
  have round : (g.procs c).raft = { rafts c with campaigning := some (.collecting req granted) } :=
    h.round
  obtain ⟨ops, stands⟩ : ∃ ops, Raft.afterPreVote (g.procs c).raft c req =
      ({ (rafts c).standing c with campaigning := some (.collecting
        (((rafts c).standing c).voteRequestLocked c ((rafts c).term + 1) false) []) }, ops,
          some (((rafts c).standing c).voteRequestLocked c ((rafts c).term + 1) false)) := by
    rw [Raft.afterPreVote, if_neg, round]
    · exact ⟨_, rfl⟩
    · rw [round]
      rintro (stopped | leads | moved)
      · rw [running] at stopped
        cases stopped
      · exact unled leads
      · exact moved term
  generalize ((rafts c).standing c).voteRequestLocked c ((rafts c).term + 1) false = real at stands
  refine (can_act honours alive member (.election (.countVotes 0))
    ((g.procs c).solicit (cfg.others c)
      ({ (rafts c).standing c with campaigning := some (.collecting real []) }, ops, some real)) ?_
    rfl rfl rfl).mono fun g' acted => ?_
  · have wins : Raft.wonRound cfg granted = true := by simpa [Raft.wonRound] using won
    have waits : (g.procs c).raft.campaigning = some (.collecting req granted) := by rw [round]
    simp only [Process.exec, Process.execElection, waits, wins, not_true_eq_false, if_false, trial,
      if_true, stands]
  · refine ⟨?_, List.forall_mem_nil _, fun m other _ => ?_, fun m there => ?_⟩
    · rw [acted.raft, Function.update_self]
    · rw [acted.others m other, Function.update_of_ne other]
      by_cases voted : m ∈ granted
      · rw [(h.voted m voted).2, unmoved m voted]
      · exact h.rest m other voted
    · simpa [acted.net] using Or.inr there

/-- A won election makes the candidate the leader. -/
theorem can_win (h : Canvassed cfg c rafts req granted g) (real : req.preVote = false)
    (won : cfg.quorum ≤ 1 + granted.length) (stands : (rafts c).state = .candidate)
    (running : (rafts c).stopped = false) (term : (rafts c).term = req.term) :
    Group.Can cfg M T up g fun g' =>
      (∃ now, (Raft.becomeLeaderLocked (rafts c).endCampaign cfg c now).2 = some (g'.raft c)) ∧
      ∀ m, m ≠ c → g'.raft m = g.raft m := by
  have round : (g.procs c).raft = { rafts c with campaigning := some (.collecting req granted) } :=
    h.round
  have able : (g.procs c).raft.stopped = false ∧ (g.procs c).raft.state = .candidate ∧
      (g.procs c).raft.term = req.term := by
    rw [round]
    exact ⟨running, stands, term⟩
  have ends : (g.procs c).raft.endCampaign = (rafts c).endCampaign := by
    rw [round]
    rfl
  obtain ⟨r, leads⟩ := afterElection_done cfg c (g.procs c).raft req ((g.procs c).clock + 1)
  refine (can_act honours alive member (.election (.countVotes ((g.procs c).clock + 1)))
    (Process.tryLock { g.procs c with clock := (g.procs c).clock + 1 }
      ((g.procs c).raft.afterElection cfg c req ((g.procs c).clock + 1))) ?_
    (by rw [Process.tryLock, leads]; rfl) rfl rfl).mono fun g' acted => ?_
  · have wins : Raft.wonRound cfg granted = true := by simpa [Raft.wonRound] using won
    have waits : (g.procs c).raft.campaigning = some (.collecting req granted) := by rw [round]
    simp only [Process.exec, Process.execElection, waits, wins, not_true_eq_false, if_false, real,
      Bool.false_eq_true, Nat.lt_succ_self, if_true]
  · refine ⟨⟨(g.procs c).clock + 1, ?_⟩, acted.others⟩
    rw [acted.raft, ← ends, ← leads, Raft.afterElection, if_pos]
    exact ⟨by rw [able.1]; exact Bool.false_ne_true, able.2⟩

/-- A node at rest is elected by nodes that do not lead and are not ahead of it. -/
theorem can_elect (resting : (g.raft c).Resting) (voters : List ID) (distinct : voters.Nodup)
    (asked : voters ⊆ cfg.others c) (alive' : ∀ m ∈ voters, up m)
    (enough : cfg.quorum ≤ 1 + voters.length)
    (willing : ∀ m ∈ voters, (g.raft m).state ≠ .leader ∧ (g.raft m).term ≤ (g.raft c).term ∧
      (g.raft m).logUpToDateLocked (g.raft c).rlog.lastIndex (g.raft c).rlog.lastTerm = true) :
    Group.Can cfg M T up g fun g' =>
      (∃ now, (Raft.becomeLeaderLocked ((g.raft c).standing c).endCampaign cfg c now).2 =
        some (g'.raft c)) ∧
      ∀ m ∈ voters, (g'.raft m).term = (g.raft c).term + 1 := by
  have apart {m : ID} (there : m ∈ voters) : m ≠ c := by
    simpa using (List.mem_filter.mp (asked there)).2
  refine (can_ask honours member alive resting).andThen fun g₁ h₁ => ?_
  have would {m : ID} (there : m ∈ voters) := by
    obtain ⟨unled, behind, upToDate⟩ := willing m there
    exact handleRequestVote_trial ((g.raft c).voteRequestLocked c ((g.raft c).term + 1) true) rfl
      unled (Nat.lt_succ_of_le behind) upToDate
  refine (can_collect honours member alive voters h₁ rfl distinct (fun m _ => List.not_mem_nil)
    asked alive' fun m there => ?_).andThen fun g₂ h₂ => ?_
  · rw [would there]
    exact ⟨rfl, (willing m there).2.1⟩
  refine (can_stand honours member alive h₂ rfl ?_ resting.unled resting.running rfl
    fun m there => ?_).andThen fun g₃ h₃ => ?_
  · rw [List.append_nil, List.length_reverse]
    exact enough
  · rw [List.append_nil, List.mem_reverse] at there
    rw [would there]
  have does {m : ID} (there : m ∈ voters) := by
    obtain ⟨unled, behind, upToDate⟩ := willing m there
    exact handleRequestVote_real
      (((g.raft c).standing c).voteRequestLocked c ((g.raft c).term + 1) false) rfl
      (Nat.lt_succ_of_le behind) upToDate
  refine (can_collect honours member alive voters h₃ rfl distinct (fun m _ => List.not_mem_nil)
    asked alive' fun m there => ?_).andThen fun g₄ h₄ => ?_
  · rw [Function.update_of_ne (apart there), Function.update_self, (does there).1]
    exact ⟨rfl, Nat.le_refl _⟩
  refine (can_win honours member alive h₄ rfl ?_ ?_ ?_ ?_).mono ?_
  · rw [List.append_nil, List.length_reverse]
    exact enough
  · rw [Function.update_self]
    rfl
  · rw [Function.update_self]
    exact resting.running
  · rw [Function.update_self]
    rfl
  · rintro g₅ ⟨leads, others⟩
    rw [Function.update_self] at leads
    refine ⟨leads, fun m there => ?_⟩
    have voted : m ∈ voters.reverse ++ [] := by simpa using there
    rw [others m (apart there), (h₄.voted m voted).2, Function.update_of_ne (apart there),
      (does there).2]
    rfl

end Elections

end EdgeKV
