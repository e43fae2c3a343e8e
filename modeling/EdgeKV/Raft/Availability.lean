import Mathlib.Data.Finset.Max
import Mathlib.Data.Prod.Lex
import EdgeKV.Raft.Serving
import EdgeKV.Raft.Transfers

/-!
A group is available as long as a majority of it is. From every state that a run can reach, however
the terms, the logs and the campaigns of the nodes stand, the nodes that are up can elect a leader
among them without the others: the one whose log ends last wins, once it has learned the latest
term. That leader takes a proposal and answers it.
-/
namespace EdgeKV

variable {ID σ : Type} [DecidableEq ID]

/-- The nodes that a leader can count on: with itself they are a majority, and all are up. -/
structure Supported (cfg : Config ID) (up : ID → Prop) (l : ID) (voters : List ID) : Prop where
  member : l ∈ cfg.peers
  alive : up l
  distinct : voters.Nodup
  asked : voters ⊆ cfg.others l
  voting : ∀ v ∈ voters, up v
  enough : cfg.quorum ≤ 1 + voters.length

section Choice

variable {cfg : Config ID} {up : ID → Prop} {nodes : List ID}

/-- One of the nodes may be elected by all the others, as far as the logs go. -/
theorem exists_upToDate (rafts : ID → Raft ID) (some : nodes ≠ []) :
    ∃ c ∈ nodes, ∀ m ∈ nodes, (rafts m).logUpToDateLocked (rafts c).rlog.lastIndex
      (rafts c).rlog.lastTerm = true := by
  obtain ⟨c, there, last⟩ := Finset.exists_max_image nodes.toFinset
    (fun m => toLex ((rafts m).rlog.lastTerm, (rafts m).rlog.lastIndex))
    ((List.toFinset_nonempty_iff nodes).mpr some)
  refine ⟨c, List.mem_toFinset.mp there, fun m other => ?_⟩
  have below := Prod.Lex.toLex_le_toLex.mp (last m (List.mem_toFinset.mpr other))
  simp only at below
  rw [Raft.logUpToDateLocked]
  split
  next differ => exact decide_eq_true (below.resolve_right fun same => differ same.1.symm)
  next same =>
    refine decide_eq_true (below.resolve_left ?_).2
    rw [not_not.mp same]
    exact Nat.lt_irrefl _

omit [DecidableEq ID] in
theorem exists_latest (rafts : ID → Raft ID) (some : nodes ≠ []) :
    ∃ h ∈ nodes, ∀ m ∈ nodes, (rafts m).term ≤ (rafts h).term := by
  classical
  obtain ⟨h, there, last⟩ := Finset.exists_max_image nodes.toFinset (fun m => (rafts m).term)
    ((List.toFinset_nonempty_iff nodes).mpr some)
  exact ⟨h, List.mem_toFinset.mp there, fun m other => last m (List.mem_toFinset.mpr other)⟩

/-- Any of a majority is supported by the rest of it. -/
theorem supported_erase (distinct : nodes.Nodup) (members : nodes ⊆ cfg.peers)
    (alive : ∀ n ∈ nodes, up n) (enough : cfg.quorum ≤ nodes.length) {c : ID} (there : c ∈ nodes) :
    Supported cfg up c (nodes.erase c) where
  member := members there
  alive := alive c there
  distinct := distinct.erase c
  asked m other := by
    obtain ⟨apart, inside⟩ := distinct.mem_erase_iff.mp other
    exact List.mem_filter.mpr ⟨members inside, decide_eq_true apart⟩
  voting m other := alive m (List.mem_of_mem_erase other)
  enough := by
    have pos := List.length_pos_of_mem there
    rw [List.length_erase_of_mem there]
    omega

end Choice

section Office

variable {cfg : Config ID} {M : StateMachine σ} {T : Transport} {up : ID → Prop}
  {g : Group ID σ} {c : ID} {voters : List ID}

/-- A leader begins its term with nothing known of the others, and with no transfer. -/
theorem becomeLeader_begins {r r' : Raft ID} {now : Nat} (running : r.stopped = false)
    (h : (Raft.becomeLeaderLocked (r.standing c).endCampaign cfg c now).2 = some r') :
    r'.leading (r.term + 1) ∧ (∀ m ∈ cfg.others c, r'.Tracks m) ∧ r'.transferTarget = none := by
  simp only [Raft.becomeLeaderLocked] at h
  split at h
  · cases h
  · rw [Raft.advanceCommitLocked_eq] at h
    cases h
    refine ⟨⟨rfl, rfl, running⟩, fun m other => Or.inl ⟨rfl, ?_⟩, rfl⟩
    simp only [other, decide_true, if_true]
    exact Nat.succ_le_succ (Nat.zero_le _)

variable (honours : T.HonoursContext)
include honours

/-- A leader that hands over its office calls that off. -/
theorem can_free (member : c ∈ cfg.peers) (alive : up c) (leads : (g.raft c).state = .leader) :
    Group.Can cfg M T up g fun g' => g'.raft c = { g.raft c with transferTarget := none } := by
  cases target : (g.raft c).transferTarget with
  | none =>
      refine .here ?_
      rw [← target]
  | some x =>
      refine .assuming fun reachable => ?_
      obtain ⟨a, rel, caught⟩ := reachable_caughtUp honours reachable
      obtain ⟨t, active, term, -⟩ := (caught c).1.running leads x target
      refine (can_act honours alive member (.client (.endTransfer t))
        (Process.lock { g.procs c with transfers := (g.procs c).transfers.erase t }
          ((g.raft c).endTransfer t, []) []) ?_ rfl rfl rfl).mono fun g' acted => ?_
      · simp only [Process.exec, Process.execClient, active, not_true_eq_false, if_false]
      · refine acted.raft.trans (if_pos ⟨leads, term.symm⟩)

/-- A node at rest takes office if it is ahead of those that back it. -/
theorem can_takeOffice (supported : Supported cfg up c voters) (resting : (g.raft c).Resting)
    (willing : ∀ m ∈ voters, (g.raft m).state ≠ .leader ∧ (g.raft m).term ≤ (g.raft c).term ∧
      (g.raft m).logUpToDateLocked (g.raft c).rlog.lastIndex (g.raft c).rlog.lastTerm = true) :
    Group.Can cfg M T up g fun g' => ∃ t, Steered c t voters g' ∧
      (g'.raft c).transferTarget = none := by
  refine (can_elect honours supported.member supported.alive resting voters supported.distinct
    supported.asked supported.voting supported.enough willing).mono ?_
  rintro g' ⟨⟨now, elected⟩, terms⟩
  obtain ⟨leads, tracks, free⟩ := becomeLeader_begins resting.running elected
  refine ⟨_, ⟨leads, fun m there => (terms m there).le, fun m there => ?_⟩, free⟩
  exact tracks m (supported.asked there)

/-- Nodes at rest that are a majority get a leader. -/
theorem can_lead {nodes : List ID} (distinct : nodes.Nodup) (members : nodes ⊆ cfg.peers)
    (alive : ∀ n ∈ nodes, up n) (enough : cfg.quorum ≤ nodes.length)
    (resting : ∀ n ∈ nodes, (g.raft n).Resting) :
    Group.Can cfg M T up g fun g' => ∃ l t voters, Supported cfg up l voters ∧
      Steered l t voters g' ∧ (g'.raft l).transferTarget = none := by
  have some : nodes ≠ [] := by
    rintro rfl
    exact absurd enough (Nat.not_succ_le_zero _)
  obtain ⟨c, chosen, upToDate⟩ := exists_upToDate g.raft some
  obtain ⟨h, latest, newest⟩ := exists_latest g.raft some
  have supported : Supported cfg up c (nodes.erase c) :=
    supported_erase distinct members alive enough chosen
  have rest {m : ID} (there : m ∈ nodes.erase c) : m ≠ c ∧ m ∈ nodes :=
    distinct.mem_erase_iff.mp there
  have found (g' : Group ID σ) (led : ∃ t, Steered c t (nodes.erase c) g' ∧
      (g'.raft c).transferTarget = none) : ∃ l t voters, Supported cfg up l voters ∧
      Steered l t voters g' ∧ (g'.raft l).transferTarget = none := by
    obtain ⟨t, steered⟩ := led
    exact ⟨c, t, _, supported, steered⟩
  rcases Nat.lt_or_ge (g.raft c).term (g.raft h).term with ahead | current
  · -- the refusal of a pre-vote tells the candidate the latest term
    have other : h ∈ nodes.erase c := by
      refine distinct.mem_erase_iff.mpr ⟨?_, latest⟩
      rintro rfl
      exact Nat.lt_irrefl _ ahead
    refine (can_learn honours supported.member supported.alive (resting c chosen)
      (supported.asked other) (supported.voting h other) ahead).andThen ?_
    rintro g₁ ⟨resting₁, term, rlog, others⟩
    refine (can_takeOffice honours supported resting₁ fun m there => ?_).mono found
    obtain ⟨apart, inside⟩ := rest there
    rw [others m apart, term, rlog]
    exact ⟨(resting m inside).unled, newest m inside, upToDate m inside⟩
  · refine (can_takeOffice honours supported (resting c chosen) fun m there => ?_).mono found
    obtain ⟨-, inside⟩ := rest there
    exact ⟨(resting m inside).unled, (newest m inside).trans current, upToDate m inside⟩

/-- A majority that is up gets a leader, whatever it is at. -/
theorem can_govern (majority : Consensus.IsMajority cfg.peers up)
    (running : ∀ n, up n → (g.raft n).stopped = false) :
    Group.Can cfg M T up g fun g' => ∃ l t voters, Supported cfg up l voters ∧
      Steered l t voters g' ∧ (g'.raft l).transferTarget = none := by
  obtain ⟨nodes, distinct, members, enough, alive⟩ := majority
  have enough : cfg.quorum ≤ nodes.length := enough
  by_cases many : 1 < cfg.quorum
  · refine (can_rest_all honours many nodes members alive fun n there =>
      running n (alive n there)).andThen fun g' resting => ?_
    exact can_lead honours distinct members alive enough resting
  · -- a node alone in its group never steps down
    obtain ⟨c, there⟩ : ∃ c, c ∈ nodes := by
      refine List.exists_mem_of_length_pos (Nat.lt_of_lt_of_le ?_ enough)
      exact Nat.succ_pos _
    by_cases leads : (g.raft c).state = .leader
    · refine (can_free honours (members there) (alive c there) leads).mono fun g' own => ?_
      have supported : Supported cfg up c [] :=
        ⟨members there, alive c there, List.nodup_nil, List.nil_subset _, List.forall_mem_nil _, by
          rw [List.length_nil]
          omega⟩
      refine ⟨c, (g.raft c).term, [], supported, ⟨?_, List.forall_mem_nil _, List.forall_mem_nil _⟩,
        by rw [own]⟩
      rw [own]
      exact ⟨leads, rfl, running c (alive c there)⟩
    · refine (can_rest honours (members there) (alive c there) leads
        (running c (alive c there))).andThen ?_
      rintro g' ⟨resting, -⟩
      refine can_lead honours (List.nodup_singleton c) (fun m own => ?_) (fun m own => ?_)
        (Nat.le_of_not_lt many) fun m own => ?_
      all_goals rw [List.mem_singleton.mp own]
      · exact members there
      · exact alive c there
      · exact resting

/-- And that leader gets ready for proposals. -/
theorem can_getReady (majority : Consensus.IsMajority cfg.peers up)
    (running : ∀ n, up n → (g.raft n).stopped = false) :
    Group.Can cfg M T up g fun g' => ∃ l t voters, Supported cfg up l voters ∧
      (g'.Fails M l ∨ Ready l t voters g') := by
  refine (can_govern honours majority running).andThen ?_
  rintro g₁ ⟨l, t, voters, supported, steered, free⟩
  refine (can_settle honours supported.member supported.alive steered.leads.2.2).mono
    fun g₂ reached => ?_
  refine ⟨l, t, voters, supported, reached.imp_right ?_⟩
  rintro ⟨waiting, pending, worked⟩
  obtain ⟨rlog, applied, waiters, done, snapshot, own⟩ := worked.raft
  refine ⟨⟨?_, fun m there => ?_, fun m there => ?_⟩, ?_, waiting, pending⟩
  · rw [own]
    exact steered.leads
  · have apart : m ≠ l := by simpa using (List.mem_filter.mp (supported.asked there)).2
    rw [worked.rest m apart]
    exact steered.behind m there
  · rw [own]
    exact steered.tracks m there
  · rw [own]
    exact free

end Office

/-- While a majority of the group is up, its nodes can by themselves bring the group from any state
it can be in to one where a leader takes a proposal, and from there to one where that proposal is
committed, applied and answered with a result; unless the state machine of that leader fails. -/
theorem majority_answers (cfg : Config ID) (M : StateMachine σ) (T : Transport)
    (honours : T.HonoursContext) (batch : 0 < cfg.maxAppendEntries) (up : ID → Prop)
    (majority : Consensus.IsMajority cfg.peers up) (g : Group ID σ)
    (reachable : Group.Reachable cfg M T g) (running : ∀ n, up n → (g.procs n).raft.stopped = false)
    (id : Nat) (data : Bytes) :
    ∃ l g₁, up l ∧ Relation.ReflTransGen (Group.Acts cfg M T up) g g₁ ∧
      ((∃ act, (g₁.procs l).MachineFails M act) ∨
        ∃ g₂ g₃, Group.Performs cfg M T l (.client (.propose id data)) g₁ g₂ ∧
          Relation.ReflTransGen (Group.Acts cfg M T up) g₂ g₃ ∧
          ((∃ act, (g₃.procs l).MachineFails M act) ∨ ∃ more term result,
            (g₃.procs l).raft.done = (g₁.procs l).raft.done ++ more ∧
            (⟨id, data, term⟩, .ok result) ∈ more)) := by
  obtain ⟨g₁, run, reachable₁, l, t, voters, supported, ready⟩ :=
    can_getReady honours majority running reachable
  refine ⟨l, g₁, supported.alive, run, ready.imp_right fun ready => ?_⟩
  obtain ⟨g₂, performs, acted⟩ := performs_acted honours reachable₁ supported.member
    (.client (.propose id data)) (Process.quiet
      { g₁.procs l with proposeCh := (g₁.procs l).proposeCh ++ [⟨id, data, 0⟩] })
    (by
      have running : (g₁.procs l).raft.stopped = false := ready.leads.2.2
      simp only [Process.exec, Process.execClient, running, Bool.false_eq_true, if_false])
    rfl (fun m received => by cases received) rfl
  have same : g₂.raft = g₁.raft := acted.unlocked rfl
  have ready₂ : Ready l t voters g₂ := by
    refine ⟨⟨?_, ?_, ?_⟩, ?_, acted.applier.trans ready.idle, ?_⟩
    all_goals rw [same]
    · exact ready.leads
    · exact ready.behind
    · exact ready.tracks
    · exact ready.free
    · exact ready.pending
  have queue : (g₂.procs l).proposeCh = (g₁.procs l).proposeCh ++ [⟨id, data, 0⟩] := by
    obtain ⟨s, own⟩ := acted.own
    rw [own]
  obtain ⟨g₃, run', -, served⟩ := can_serve honours supported.member supported.alive supported.asked
    supported.voting batch supported.distinct supported.enough ready₂ queue
    (acts_reachable reachable₁ ⟨l, _, supported.alive, performs⟩)
  refine ⟨g₂, g₃, performs, run', served.imp_right ?_⟩
  rintro ⟨more, result, done, told⟩
  rw [same] at done
  exact ⟨more, t, result, done, told⟩

/-- The leader of a group of three is cut off: the other two answer a proposal. -/
theorem majority_answers_two :
    ∃ g : Group Nat Unit, Group.Reachable trio idleMachine ⟨false⟩ g ∧
      (g.procs 0).raft.state = .leader ∧
      ∃ l g₁ g₂ g₃, (l = 1 ∨ l = 2) ∧
        Relation.ReflTransGen (Group.Acts trio idleMachine ⟨false⟩ fun n => n = 1 ∨ n = 2) g g₁ ∧
        Group.Performs trio idleMachine ⟨false⟩ l (.client (.propose 7 [1])) g₁ g₂ ∧
        Relation.ReflTransGen (Group.Acts trio idleMachine ⟨false⟩ fun n => n = 1 ∨ n = 2) g₂ g₃ ∧
        ∃ more term result, (g₃.procs l).raft.done = (g₁.procs l).raft.done ++ more ∧
          (⟨7, [1], term⟩, .ok result) ∈ more := by
  obtain ⟨g, hg, leads, running⟩ : ∃ g, Group.play trio idleMachine ⟨false⟩
      (Group.initial idleMachine) electedRun = some g ∧ (g.procs 0).raft.state = .leader ∧
      (g.procs 1).raft.stopped = false ∧ (g.procs 2).raft.stopped = false :=
    ⟨_, rfl, rfl, rfl, rfl⟩
  have reachable : Group.Reachable trio idleMachine ⟨false⟩ g := Group.play_steps hg
  have sound (p : Process Nat Unit) (act : Action Nat) : ¬ p.MachineFails idleMachine act := by
    unfold Process.MachineFails
    split
    · rintro ⟨snap, -, failed⟩
      cases failed
    · rintro ⟨e, rest, results, -, failed⟩
      cases failed
    · exact id
  have majority : Consensus.IsMajority trio.peers fun n => n = 1 ∨ n = 2 :=
    ⟨[1, 2], by decide, by decide, by decide, by decide⟩
  obtain ⟨l, g₁, up, run, failed | ⟨g₂, g₃, performs, run', failed | answered⟩⟩ :=
    majority_answers trio idleMachine ⟨false⟩ rfl (by decide) (fun n => n = 1 ∨ n = 2) majority g
      reachable (by
        rintro n (rfl | rfl)
        · exact running.1
        · exact running.2) 7 [1]
  · obtain ⟨act, fails⟩ := failed
    exact absurd fails (sound _ _)
  · obtain ⟨act, fails⟩ := failed
    exact absurd fails (sound _ _)
  · exact ⟨g, reachable, leads, l, g₁, g₂, g₃, up, run, performs, run', answered⟩

end EdgeKV
