import EdgeKV.Raft.Isolation

/-!
A leader that a healthy majority hears from stays the leader. Members of that majority
refuse every pre-vote and do not time out, so nobody wins a pre-vote round for a later
term; without that nobody takes up a later term, and nothing on the wire carries one. The
rest of the group may do as it likes: time out, crash, lag behind or come back.
-/
namespace EdgeKV

open Consensus (IsMajority)

variable {ID σ : Type}

section Peace

variable [DecidableEq ID] (cfg : Config ID) (l : ID) (healthy : ID → Prop) (t : Nat)

/-- What is asked of an action of node `m` while `l` leads in term `t`: the healthy have heard from
a leader when a pre-vote for a later term reaches them, and do not time out; the ticks of the
leader find recent answers; and nobody is told to campaign. -/
def Action.Peaceful (m : ID) (p : Process ID σ) : Action ID → Prop
  | .election (.requestVote req recent) =>
      req.preVote = true → t < req.term → healthy m → p.raft.state = .leader ∨ recent = true
  | .election (.tick now expired) =>
      (healthy m → expired = true → p.raft.state = .leader) ∧
        (m = l → p.raft.hasQuorumAckSinceLocked cfg l (now - cfg.electionTimeoutMax) = true)
  | .election (.timeoutNow _) => False
  | _ => True

variable (M : StateMachine σ) (T : Transport)

/-- A step in peace: such an action, or a crash of a node that is not the leader. -/
inductive Group.Peaceful : Group ID σ → Group ID σ → Prop
  | act {g g' : Group ID σ} {m : ID} {a : Action ID}
      (peaceful : a.Peaceful cfg l healthy t m (g.procs m)) (performs : Performs cfg M T m a g g') :
      Peaceful g g'
  | crash {g g' : Group ID σ} {m : ID} (other : m ≠ l) (crashes : Crashes cfg M T m g g') :
      Peaceful g g'

end Peace

section Tame

variable [DecidableEq ID] (cfg : Config ID) (healthy : ID → Prop) (t : Nat)

/-- A round of node `m` that does not lead past term `t`: a pre-vote round for a later term is one
of a node that is not healthy, and no healthy node has granted it. -/
def Campaign.Tame (m : ID) : Campaign ID → Prop
  | .starting skipPreVote => skipPreVote = false ∧ ¬ healthy m
  | .collecting req granted => req.candidateId = m ∧
      (req.preVote = false → req.term ≤ t) ∧
      (req.preVote = true → t < req.term →
        ¬ healthy m ∧ granted.Nodup ∧ ∀ v ∈ granted, v ∈ cfg.others m ∧ ¬ healthy v)

def Call.Tame (m : ID) : Call ID → Prop
  | .append peer req => req.term ≤ t ∧ peer ∈ cfg.others req.leaderId
  | .needSnapshot peer term => term ≤ t ∧ peer ∈ cfg.others m
  | .install peer req => req.term ≤ t ∧ peer ∈ cfg.others req.leaderId

/-- A message that takes nobody past term `t`. -/
def Msg.Tame : Msg ID → Prop
  | .requestVote _ req => req.preVote = false → req.term ≤ t
  | .voteReply src _ req resp => resp.term ≤ t ∧
      (resp.voteGranted = true → req.preVote = true → t < req.term → ¬ healthy src)
  | .appendEntries dst _ req => req.term ≤ t ∧ dst ∈ cfg.others req.leaderId
  | .appendReply _ _ _ _ resp => resp.term ≤ t
  | .installSnapshot dst _ req => req.term ≤ t ∧ dst ∈ cfg.others req.leaderId
  | .installReply _ _ _ _ resp => resp.term ≤ t
  | .timeoutNow _ _ => True

instance Msg.decidableTame [DecidablePred healthy] :
    (m : Msg ID) → Decidable (m.Tame cfg healthy t)
  | .requestVote _ req => inferInstanceAs (Decidable (req.preVote = false → req.term ≤ t))
  | .voteReply src _ req resp => inferInstanceAs (Decidable (resp.term ≤ t ∧
      (resp.voteGranted = true → req.preVote = true → t < req.term → ¬ healthy src)))
  | .appendEntries dst _ req | .installSnapshot dst _ req =>
      inferInstanceAs (Decidable (req.term ≤ t ∧ dst ∈ cfg.others req.leaderId))
  | .appendReply _ _ _ _ resp | .installReply _ _ _ _ resp =>
      inferInstanceAs (Decidable (resp.term ≤ t))
  | .timeoutNow _ _ => inferInstanceAs (Decidable True)

structure Process.Tame (m : ID) (p : Process ID σ) : Prop where
  term : p.raft.term ≤ t
  round : ∀ c, p.raft.campaigning = some c → c.Tame cfg healthy t m
  calls : ∀ c ∈ p.calls, c.Tame cfg t m

/-- Nothing in the group leads past term `t`. -/
structure Group.Tame (g : Group ID σ) : Prop where
  nodes : ∀ m, (g.procs m).Tame cfg healthy t m
  net : ∀ m ∈ g.net, m.Tame cfg healthy t

end Tame

section Regions

variable (r : Raft ID)

theorem becomeFollowerLocked_saved {term : Nat} {leader : Option ID} {hs : HardState ID}
    (there : StorageOp.hardState hs ∈ (r.becomeFollowerLocked term leader).2) : hs.term = term := by
  rw [Raft.becomeFollowerLocked_eq] at there
  simp only at there
  split at there
  · cases List.mem_singleton.mp there
    rfl
  · cases there

theorem appendEntriesLocked_neutral (req : AppendEntriesRequest ID) (hs : HardState ID) :
    StorageOp.hardState hs ∉ (r.appendEntriesLocked req).1 := by
  have store (entries : List Entry) : StorageOp.hardState hs ∉ (r.storeEntries req entries).1 := by
    intro there
    simp only [Raft.storeEntries] at there
    split at there
    · cases there
    · split at there
      · cases there
      · exact entries_neutral _ hs there
  have check (prevIndex : Nat) (entries : List Entry) :
      StorageOp.hardState hs ∉ (r.checkEntries req prevIndex entries).1 := by
    intro there
    simp only [Raft.checkEntries] at there
    split at there
    · cases there
    · split at there
      · cases there
      · exact store entries there
  intro there
  simp only [Raft.appendEntriesLocked] at there
  split at there
  · split at there
    · cases there
    · exact check _ _ there
  · exact check _ _ there

variable [DecidableEq ID]

theorem grantVoteLocked_saved {req : RequestVoteRequest ID} {hs : HardState ID}
    (there : StorageOp.hardState hs ∈ (r.grantVoteLocked req).2.1) : hs.term = r.term := by
  simp only [Raft.grantVoteLocked] at there
  split at there
  · cases List.mem_singleton.mp there
    rfl
  · cases there

theorem handleRequestVote_bounded {req : RequestVoteRequest ID} {recent : Bool} {t : Nat}
    (le : r.term ≤ t) (within : req.preVote = false → req.term ≤ t) {hs : HardState ID}
    (there : StorageOp.hardState hs ∈ (r.handleRequestVote req recent).2.1) : hs.term ≤ t := by
  simp only [Raft.handleRequestVote] at there
  split at there
  · cases there
  next real =>
    have within := within (by simpa using real)
    split at there
    · cases there
    · split at there
      next newer =>
        rcases List.mem_append.mp there with adopted | granted
        · rw [becomeFollowerLocked_saved r adopted]
          exact within
        · rw [grantVoteLocked_saved _ granted, Raft.becomeFollowerLocked_eq]
          exact Nat.max_le.mpr ⟨le, within⟩
      · rw [grantVoteLocked_saved r there]
        exact le

theorem followLocked_saved {term : Nat} {leader : ID} {hs : HardState ID}
    (there : StorageOp.hardState hs ∈ (r.followLocked term leader).2) : hs.term = term := by
  simp only [Raft.followLocked] at there
  split at there
  · exact becomeFollowerLocked_saved r there
  · cases there

theorem handleAppendEntries_saved {req : AppendEntriesRequest ID} {hs : HardState ID}
    (there : StorageOp.hardState hs ∈ (r.handleAppendEntries req).1) : hs.term = req.term := by
  simp only [Raft.handleAppendEntries] at there
  split at there
  · cases there
  · rcases List.mem_append.mp there with adopted | stored
    · exact followLocked_saved r adopted
    · exact absurd stored (appendEntriesLocked_neutral _ req hs)

theorem handleInstallSnapshot_saved {req : InstallSnapshotRequest ID} {hs : HardState ID}
    (there : StorageOp.hardState hs ∈ (r.handleInstallSnapshot req).2.1) : hs.term = req.term := by
  simp only [Raft.handleInstallSnapshot] at there
  split at there
  · cases there
  · rcases List.mem_append.mp there with adopted | stored
    · exact followLocked_saved r adopted
    · simp only [Raft.installSnapshotLocked] at stored
      split at stored
      · cases stored
      · cases List.mem_singleton.mp stored

theorem onReply_saved {respTerm reqTerm : Nat} {peer : ID} {sentAt : Nat}
    {handle : Raft ID → Raft ID} {hs : HardState ID}
    (there : StorageOp.hardState hs ∈ (r.onReply respTerm reqTerm peer sentAt handle).2) :
    hs.term = respTerm := by
  simp only [Raft.onReply] at there
  split at there
  · exact becomeFollowerLocked_saved r there
  · split at there <;> cases there

theorem handleVoteReply_saved {peer : ID} {req : RequestVoteRequest ID}
    {resp : RequestVoteResponse} {hs : HardState ID}
    (there : StorageOp.hardState hs ∈ (r.handleVoteReply peer req resp).2) :
    hs.term = resp.term := by
  have adopted (there : StorageOp.hardState hs ∈
      (if r.term < resp.term then r.becomeFollowerLocked resp.term none else (r, [])).2) :
      hs.term = resp.term := by
    split at there
    · exact becomeFollowerLocked_saved r there
    · cases there
  simp only [Raft.handleVoteReply] at there
  split at there
  · split at there <;> exact adopted there
  · exact adopted there

end Regions

section Effects

variable [DecidableEq ID] {cfg : Config ID} {healthy : ID → Prop} {t : Nat} {self l : ID}
  {M : StateMachine σ} {T : Transport} {p p' : Process ID σ} {act : Action ID}
  {out : Outcome ID σ} {sent : List (Msg ID)}

/-- A pre-vote round for a later term is not won: the voters would be a majority without a
healthy member. -/
theorem round_unwon (majority : IsMajority cfg.peers healthy) (member : self ∈ cfg.peers)
    {req : RequestVoteRequest ID} {granted : List ID}
    (tame : (Campaign.collecting req granted).Tame cfg healthy t self)
    (trial : req.preVote = true) (won : cfg.quorum ≤ 1 + granted.length) : req.term ≤ t := by
  by_contra later
  obtain ⟨sick, distinct, counted⟩ := tame.2.2 trial (by omega)
  have others (v : ID) (hv : v ∈ granted) : v ∈ cfg.peers ∧ v ≠ self := by
    simpa [Config.others] using (counted v hv).1
  have refusing : IsMajority cfg.peers fun v => ¬ healthy v := by
    refine ⟨self :: granted, List.nodup_cons.mpr ⟨fun own => (others self own).2 rfl, distinct⟩,
      List.cons_subset.mpr ⟨member, fun v hv => (others v hv).1⟩, ?_, fun v hv => ?_⟩
    · simpa [Config.quorum, Nat.add_comm] using won
    · rcases List.mem_cons.mp hv with rfl | hv
      · exact sick
      · exact (counted v hv).2
  obtain ⟨v, well, ill⟩ := Consensus.isMajority_meets majority refusing
  exact ill well

/-- No action of a tame process writes a term past `t`, also if it does not end. -/
theorem effect_bounded (majority : IsMajority cfg.peers healthy) (member : self ∈ cfg.peers)
    (tame : p.Tame cfg healthy t self) (h : Effect cfg self M T p act out)
    (received : ∀ m, act.input self = some m → m.Tame cfg healthy t) {hs : HardState ID}
    (there : StorageOp.hardState hs ∈ out.ops) : hs.term ≤ t := by
  cases h with
  | requestVote => exact handleRequestVote_bounded _ tame.term (received _ rfl) there
  | voteReply => exact handleVoteReply_saved _ there ▸ (received _ rfl).1
  | appendEntries => exact handleAppendEntries_saved _ there ▸ (received _ rfl).1
  | appendReply => exact onReply_saved _ there ▸ received _ rfl
  | installSnapshot => exact handleInstallSnapshot_saved _ there ▸ (received _ rfl).1
  | installReply => exact onReply_saved _ there ▸ received _ rfl
  | @campaign skipPreVote starting =>
      have trial : skipPreVote = false := (tame.round _ starting).1
      subst trial
      simp only [Process.solicit, Process.lock, Raft.beginCampaign] at there
      split at there
      · cases there
      · cases there
  | @wonPreVote now req granted round won trial =>
      have le := round_unwon majority member (tame.round _ round) trial won
      simp only [Process.solicit, Process.lock, Raft.afterPreVote] at there
      split at there
      · cases there
      next able =>
        cases List.mem_singleton.mp there
        have next : p.raft.term + 1 = req.term := by tauto
        exact next ▸ le
  | checkQuorum running leads =>
      simp only [Process.lock, Raft.checkQuorumLocked] at there
      split at there
      · cases there
      · rw [becomeFollowerLocked_saved _ there]
        exact tame.term
  | wonElection round won real later => exact absurd there (afterElection_neutral _ _ _ hs)
  | appendProposals nonempty small batch => exact absurd there (appendProposals_neutral _ _ hs)
  | @saveFailed index term data durable stage =>
      cases durable with
      | false => cases there
      | true => cases List.mem_singleton.mp there
  | saveSnapshot stage => cases List.mem_singleton.mp there
  | electionTimeout | abandonCampaign | timeoutNow | replicatePanic | replicate | readSnapshot | send
  | propose | readIndex | refuseRead | startRead | checkRead | abandonRead | startTransfer
  | targetReady | sendTimeoutNow | endTransfer | stop | takeSnapshot | takePanic | takeEntries
  | restorePanic | restore | finishRestore | skip | applyPanic | apply | finishPanic | finishBatch
  | snapshotFailed | snapshot | snapshotOvertaken | snapshotTerm | compact => cases there

/-- The round of a process stays tame. -/
theorem effect_round (majority : IsMajority cfg.peers healthy) (member : self ∈ cfg.peers)
    (tame : p.Tame cfg healthy t self) (h : Effect cfg self M T p act out)
    (peaceful : act.Peaceful cfg l healthy t self p)
    (received : ∀ m, act.input self = some m → m.Tame cfg healthy t)
    (voter : ∀ peer req resp, act = .election (.voteReply peer req resp) →
      peer ∈ cfg.others req.candidateId)
    (next : out.next = some (p', sent)) :
    ∀ c, p'.raft.campaigning = some c → c.Tame cfg healthy t self := by
  intro c there
  cases effect_canvass h next with
  | calm calm => exact tame.round c (calm.campaigning ▸ there)
  | ended campaigning => cases campaigning.symm.trans there
  | timedOut timeout idle eq =>
      subst timeout
      rw [eq] at there
      cases there
      exact ⟨rfl, fun well => idle (peaceful.1 well rfl)⟩
  | asked starting idle eq =>
      rw [eq] at there
      cases there
      have sick := (tame.round _ starting).2
      exact ⟨rfl, fun real => (by cases real),
        fun _ _ => ⟨sick, List.nodup_nil, fun v counted => by cases counted⟩⟩
  | stood why eq ops =>
      have saved : StorageOp.hardState ⟨p.raft.term + 1, some self⟩ ∈ out.ops :=
        ops ▸ List.mem_singleton.mpr rfl
      have bounded := effect_bounded majority member tame h received saved
      rw [eq] at there
      cases there
      exact ⟨rfl, fun _ => bounded, fun trial => by cases trial⟩
  | @counted peer req resp granted answered yes first before round led =>
      cases round.symm.trans there
      obtain ⟨own, real, trial⟩ := tame.round _ before
      refine ⟨own, real, fun pre later => ?_⟩
      obtain ⟨sick, distinct, counted⟩ := trial pre later
      have grant : (Msg.voteReply peer self req resp).Tame cfg healthy t :=
        received _ (by rw [answered]; rfl)
      refine ⟨sick, List.nodup_cons.mpr ⟨first, distinct⟩, fun v hv => ?_⟩
      rcases List.mem_cons.mp hv with rfl | old
      · exact ⟨own ▸ voter _ _ _ answered, grant.2 yes pre later⟩
      · exact counted v old
  | told told => subst told; exact peaceful.elim

/-- No healthy voter grants a pre-vote for a later term, and no answer carries one. -/
theorem handleRequestVote_tame {r : Raft ID} {req : RequestVoteRequest ID} {recent : Bool}
    (le : r.term ≤ t) (within : req.preVote = false → req.term ≤ t)
    (refuses : req.preVote = true → t < req.term → healthy self → r.state = .leader ∨ recent = true) :
    (Msg.voteReply self req.candidateId req (r.handleRequestVote req recent).2.2).Tame cfg healthy t := by
  have grant (r : Raft ID) (le : r.term ≤ t) : (r.grantVoteLocked req).2.2.term ≤ t := by
    simp only [Raft.grantVoteLocked]
    split <;> exact le
  simp only [Raft.handleRequestVote]
  split
  next pre =>
    simp only [Raft.handlePreVoteLocked]
    split
    · exact ⟨le, fun yes => by cases yes⟩
    · split
      · exact ⟨le, fun yes => by cases yes⟩
      next lonely => exact ⟨le, fun _ _ later well => lonely (refuses pre later well)⟩
  next real =>
    have within := within (by simpa using real)
    refine ⟨?_, fun _ pre => absurd pre real⟩
    split
    · exact le
    · split
      · refine grant _ ?_
        rw [Raft.becomeFollowerLocked_eq]
        exact Nat.max_le.mpr ⟨le, within⟩
      · exact grant r le

theorem followLocked_le {r : Raft ID} {term : Nat} {leader : ID} (le : r.term ≤ t)
    (within : term ≤ t) : (r.followLocked term leader).1.term ≤ t := by
  simp only [Raft.followLocked]
  split
  · rw [Raft.becomeFollowerLocked_eq]
    exact Nat.max_le.mpr ⟨le, within⟩
  · exact le

theorem handleAppendEntries_le {r : Raft ID} {req : AppendEntriesRequest ID}
    {x : Raft ID × AppendEntriesResponse} (le : r.term ≤ t) (within : req.term ≤ t)
    (h : (r.handleAppendEntries req).2 = some x) : x.2.term ≤ t := by
  simp only [Raft.handleAppendEntries] at h
  split at h
  · cases h; exact le
  · rw [appendEntriesLocked_respTerm _ h]
    exact followLocked_le le within

theorem handleInstallSnapshot_le {r : Raft ID} {req : InstallSnapshotRequest ID} (le : r.term ≤ t)
    (within : req.term ≤ t) : (r.handleInstallSnapshot req).2.2.term ≤ t := by
  simp only [Raft.handleInstallSnapshot]
  split
  · exact le
  · exact followLocked_le le within

theorem messages_tame {c : Call ID} {now : Nat} (tame : c.Tame cfg t self) {m : Msg ID}
    (sent : m ∈ c.messages now) : m.Tame cfg healthy t := by
  cases c with
  | append peer req => obtain rfl := List.mem_singleton.mp sent; exact tame
  | needSnapshot peer term => cases sent
  | install peer req => obtain rfl := List.mem_singleton.mp sent; exact tame

/-- A real vote request that goes out is for a term that was written before. -/
theorem solicit_tame
    {result : Raft ID × List (StorageOp ID) × Option (RequestVoteRequest ID)} {peers : List ID}
    (bounded : ∀ q, result.2.2 = some q → q.preVote = false → q.term ≤ t)
    (next : (p.solicit peers result).next = some (p', sent)) : ∀ m ∈ sent, m.Tame cfg healthy t := by
  cases next
  intro m hm
  obtain ⟨q, hq, hm⟩ := List.mem_flatMap.mp hm
  obtain ⟨peer, -, rfl⟩ := List.mem_map.mp hm
  exact bounded q (Option.mem_toList.mp hq)

theorem effect_calls (tame : p.Tame cfg healthy t self) (h : Effect cfg self M T p act out)
    (next : out.next = some (p', sent)) : ∀ c ∈ p'.calls, c.Tame cfg t self := by
  cases h with
  | @replicate peer call other built =>
      cases next
      intro c hc
      rcases List.mem_cons.mp hc with rfl | old
      · simp only [Raft.replicateOnce] at built
        split at built
        · cases built
        · split at built
          · cases built; exact ⟨tame.term, other⟩
          · split at built
            · cases built
            · cases built; exact ⟨tame.term, other⟩
      · exact tame.calls c old
  | @readSnapshot peer term waiting =>
      cases next
      intro c hc
      rcases List.mem_append.mp hc with new | old
      · obtain ⟨snapMeta, -, rfl⟩ := Option.map_eq_some_iff.mp (Option.mem_toList.mp new)
        have asked : (Call.needSnapshot peer term).Tame cfg t self := tame.calls _ waiting
        exact asked
      · exact tame.calls c (List.mem_of_mem_erase old)
  | send built later => cases next; exact fun c hc => tame.calls c (List.mem_of_mem_erase hc)
  | wonElection | appendProposals =>
      obtain ⟨-, eq, -⟩ := tryLock_next next
      rw [eq]
      exact tame.calls
  | appendEntries =>
      obtain ⟨x, -, hx⟩ := Option.map_eq_some_iff.mp next
      cases hx
      exact tame.calls
  | replicatePanic | takePanic | restorePanic | applyPanic | finishPanic => cases next
  | checkQuorum | electionTimeout | campaign | wonPreVote | abandonCampaign | requestVote | voteReply
  | timeoutNow | appendReply | installSnapshot | installReply | propose | readIndex | refuseRead
  | startRead | checkRead | abandonRead | startTransfer | targetReady | sendTimeoutNow
  | endTransfer | stop | takeSnapshot | takeEntries | restore | finishRestore | skip | apply
  | finishBatch | snapshotFailed | snapshot | snapshotOvertaken | snapshotTerm | saveFailed
  | saveSnapshot | compact =>
      cases next
      exact tame.calls

theorem effect_sent (majority : IsMajority cfg.peers healthy) (member : self ∈ cfg.peers)
    (tame : p.Tame cfg healthy t self) (h : Effect cfg self M T p act out)
    (peaceful : act.Peaceful cfg l healthy t self p)
    (received : ∀ m, act.input self = some m → m.Tame cfg healthy t)
    (next : out.next = some (p', sent)) : ∀ m ∈ sent, m.Tame cfg healthy t := by
  cases h with
  | @campaign skipPreVote starting =>
      have trial : skipPreVote = false := (tame.round _ starting).1
      subst trial
      refine solicit_tame (fun q hq real => ?_) next
      simp only [Raft.beginCampaign] at hq
      split at hq
      · cases hq
      · cases hq
        cases real
  | @wonPreVote now req granted round won trial =>
      have le := round_unwon majority member (tame.round _ round) trial won
      refine solicit_tame (fun q hq real => ?_) next
      simp only [Raft.afterPreVote] at hq
      split at hq
      · cases hq
      next able =>
        have same : p.raft.term + 1 = req.term := by tauto
        cases hq
        show p.raft.term + 1 ≤ t
        omega
  | requestVote =>
      cases next
      intro m hm
      rw [List.mem_singleton.mp hm]
      exact handleRequestVote_tame tame.term (received _ rfl) peaceful
  | appendEntries =>
      obtain ⟨x, handled, hx⟩ := Option.map_eq_some_iff.mp next
      cases hx
      intro m hm
      rw [List.mem_singleton.mp hm]
      exact handleAppendEntries_le tame.term (received _ rfl).1 handled
  | installSnapshot =>
      cases next
      intro m hm
      rw [List.mem_singleton.mp hm]
      exact handleInstallSnapshot_le tame.term (received _ rfl).1
  | @send call now built later =>
      cases next
      intro m hm
      split at hm
      · exact messages_tame (tame.calls call built) hm
      · cases hm
  | sendTimeoutNow =>
      cases next
      intro m hm
      rw [List.mem_singleton.mp hm]
      trivial
  | wonElection | appendProposals =>
      obtain ⟨-, -, rfl⟩ := tryLock_next next
      exact fun m hm => by cases hm
  | replicatePanic | takePanic | restorePanic | applyPanic | finishPanic => cases next
  | checkQuorum | electionTimeout | abandonCampaign | voteReply | timeoutNow | replicate
  | readSnapshot | appendReply | installReply | propose | readIndex | refuseRead | startRead
  | checkRead | abandonRead | startTransfer | targetReady | endTransfer | stop | takeSnapshot
  | takeEntries | restore | finishRestore | skip | apply | finishBatch | snapshotFailed | snapshot
  | snapshotOvertaken | snapshotTerm | saveFailed | saveSnapshot | compact =>
      cases next
      exact fun m hm => by cases hm

end Effects

section Roles

variable [DecidableEq ID] {cfg : Config ID} {self peer : ID} (r : Raft ID)

theorem handleRequestVote_state (req : RequestVoteRequest ID) (recent : Bool)
    (current : req.preVote = false → ¬ r.term < req.term) :
    (r.handleRequestVote req recent).1.state = r.state := by
  simp only [Raft.handleRequestVote]
  split
  · rfl
  next real =>
    rw [if_neg (current (by simpa using real))]
    split
    · rfl
    · simp only [Raft.grantVoteLocked]
      split <;> rfl

theorem handleVoteReply_state (peer : ID) (req : RequestVoteRequest ID)
    (resp : RequestVoteResponse) (current : ¬ r.term < resp.term) :
    (r.handleVoteReply peer req resp).1.state = r.state := by
  simp only [Raft.handleVoteReply, if_neg current]
  split
  · split <;> rfl
  · rfl

theorem appendReplyLocked_state (req : AppendEntriesRequest ID) (resp : AppendEntriesResponse) :
    (r.appendReplyLocked cfg self peer req resp).state = r.state := by
  simp only [Raft.appendReplyLocked, Raft.advanceCommitLocked_eq]
  split
  · split <;> rfl
  · rfl

theorem installReplyLocked_state (req : InstallSnapshotRequest ID) :
    (r.installReplyLocked cfg self peer req).state = r.state := by
  simp only [Raft.installReplyLocked, Raft.advanceCommitLocked_eq]
  split <;> rfl

theorem onReply_state {respTerm reqTerm : Nat} {sentAt : Nat} {handle : Raft ID → Raft ID}
    (current : ¬ r.term < respTerm) (kept : ∀ r, (handle r).state = r.state) :
    (r.onReply respTerm reqTerm peer sentAt handle).1.state = r.state := by
  simp only [Raft.onReply, if_neg current]
  split
  · rfl
  · rw [kept, Raft.recordAckLocked]
    split <;> rfl

end Roles

section Runs

variable [DecidableEq ID] {cfg : Config ID} {healthy : ID → Prop} {t : Nat} {l : ID}
  {M : StateMachine σ} {T : Transport} {g g' : Group ID σ}

omit [DecidableEq ID] in
theorem hardStateAfter_le {hs : HardState ID} {ops : List (StorageOp ID)} (le : hs.term ≤ t)
    (bounded : ∀ hs', StorageOp.hardState hs' ∈ ops → hs'.term ≤ t) :
    (hardStateAfter hs ops).term ≤ t := by
  induction ops generalizing hs with
  | nil => exact le
  | cons op ops ih =>
      have rest : ∀ hs', StorageOp.hardState hs' ∈ ops → hs'.term ≤ t :=
        fun hs' there => bounded hs' (List.mem_cons_of_mem _ there)
      cases op with
      | hardState hs' => exact ih (bounded hs' (List.mem_cons_self ..)) rest
      | entry e | snapshot snapMeta data discardLog => exact ih le rest

theorem peaceful_tame (majority : IsMajority cfg.peers healthy)
    (reachable : Group.Reachable cfg M T g) (tame : g.Tame cfg healthy t)
    (step : Group.Peaceful cfg l healthy t M T g g') : g'.Tame cfg healthy t := by
  obtain ⟨V, ballots⟩ := reachable_ballots reachable
  cases step with
  | @act m a peaceful performs =>
      obtain ⟨out, p, sent, s, enabled, stored, next, rfl⟩ := performs
      have effect := exec_effect enabled.exec
      have received (x : Msg ID) (input : a.input m = some x) : x.Tame cfg healthy t :=
        tame.net x (enabled.received x input)
      have voter (peer : ID) (req : RequestVoteRequest ID) (resp : RequestVoteResponse)
          (answered : a = .election (.voteReply peer req resp)) :
          peer ∈ cfg.others req.candidateId := by
        subst answered
        exact (ballots.msgs _ (enabled.received _ rfl)).1
      have member := enabled.member
      refine ⟨fun k => ?_, fun x hx => ?_⟩
      · by_cases own : k = m
        · subst own
          simp only [Function.update_self]
          have node := tame.nodes k
          have round := effect_round majority member node effect peaceful received voter next
          have calls := effect_calls node effect next
          refine ⟨?_, round, calls⟩
          show p.raft.hardState.term ≤ t
          rw [← (effect_casts effect).after p.raft (by rw [Outcome.raft, next]; rfl)]
          exact hardStateAfter_le node.term fun hs' there =>
            effect_bounded majority member node effect received there
        · simp only [Function.update_of_ne own]
          exact tame.nodes k
      · rcases List.mem_append.mp hx with old | new
        · exact tame.net x old
        · exact effect_sent majority member (tame.nodes m) effect peaceful received next x new
  | @crash m other crashes =>
      obtain ⟨ops, s, p, interrupted, stored, restarted, rfl⟩ := crashes
      refine ⟨fun k => ?_, tame.net⟩
      by_cases own : k = m
      · subst own
        have saved := performAll_hardState _ _ _ stored
        obtain ⟨raft, machine, created, -, rfl⟩ := start_eq restarted
        obtain ⟨rlog, -, rfl⟩ := Option.map_eq_some_iff.mp created
        simp only [Function.update_self]
        refine ⟨?_, fun c there => (by cases there), fun c there => by cases there⟩
        show s.hardState.term ≤ t
        rw [saved, (ballots.nodes k).synced]
        refine hardStateAfter_le (tame.nodes k).term fun hs' there => ?_
        cases interrupted with
        | idle member => cases there
        | during enabled begun =>
            exact effect_bounded majority enabled.member (tame.nodes k) (exec_effect enabled.exec)
              (fun x input => tame.net x (enabled.received x input)) (begun.subset there)
      · simp only [Function.update_of_ne own]
        exact tame.nodes k

/-- No action in peace makes the leader step down, as long as no other leader of its term calls
it. -/
theorem effect_reigns {p p' : Process ID σ} {act : Action ID} {out : Outcome ID σ}
    {sent : List (Msg ID)} (h : Effect cfg l M T p act out)
    (peaceful : act.Peaceful cfg l healthy t l p)
    (received : ∀ m, act.input l = some m → m.Tame cfg healthy t)
    (appends : ∀ sentAt req, act.input l = some (.appendEntries l sentAt req) →
      req.term < p.raft.term)
    (installs : ∀ sentAt req, act.input l = some (.installSnapshot l sentAt req) →
      req.term < p.raft.term)
    (leads : p.raft.state = .leader) (term : p.raft.term = t)
    (next : out.next = some (p', sent)) : p'.raft.state = .leader := by
  have current {u : Nat} (le : u ≤ t) : ¬ p.raft.term < u := by omega
  cases h with
  | checkQuorum running leads =>
      cases next
      simp only [Raft.checkQuorumLocked, peaceful.2 rfl, if_true]
      exact leads
  | electionTimeout running idle => exact absurd leads idle
  | campaign starting =>
      cases next
      simp only [Raft.beginCampaign, leads, or_true, if_true]
      exact leads
  | wonPreVote round won trial =>
      cases next
      simp only [Raft.afterPreVote, leads, true_or, or_true, if_true]
      exact leads
  | wonElection round won real later =>
      have done := (tryLock_next next).1
      simp only [Raft.afterElection, leads, reduceCtorEq, false_and, and_false, if_false] at done
      rw [← Option.some.inj done]
      exact leads
  | abandonCampaign round => cases next; exact leads
  | timeoutNow => exact peaceful.elim
  | @requestVote req recent =>
      cases next
      exact (handleRequestVote_state p.raft req recent fun real =>
        current ((received _ rfl : (Msg.requestVote l req).Tame cfg healthy t) real)).trans leads
  | voteReply => cases next; exact (handleVoteReply_state _ _ _ _ (current (received _ rfl).1)).trans leads
  | @appendEntries sentAt req =>
      obtain ⟨x, handled, hx⟩ := Option.map_eq_some_iff.mp next
      cases hx
      simp only [Raft.handleAppendEntries, appends _ _ rfl, if_true] at handled
      cases handled
      exact leads
  | @installSnapshot sentAt req =>
      cases next
      simp only [Raft.handleInstallSnapshot, installs _ _ rfl, if_true]
      exact leads
  | appendReply =>
      cases next
      exact (onReply_state _ (current (received _ rfl)) fun r => appendReplyLocked_state r _ _).trans leads
  | installReply =>
      cases next
      exact (onReply_state _ (current (received _ rfl)) fun r => installReplyLocked_state r _).trans leads
  | appendProposals nonempty there batch =>
      have done := (tryLock_next next).1
      simp only [Raft.appendProposals] at done
      split at done
      · rw [← Option.some.inj done]
        exact leads
      · split at done
        · cases done
        · rw [← Option.some.inj done, Raft.advanceCommitLocked_eq]
          exact leads
  | startTransfer later started =>
      cases next
      obtain ⟨-, -, rfl, -⟩ := startTransfer_eq started
      exact leads
  | endTransfer active =>
      cases next
      simp only [Raft.endTransfer]
      split <;> exact leads
  | stop =>
      cases next
      simp only [Raft.stop]
      split <;> exact leads
  | @finishBatch results last stage final =>
      cases next
      obtain ⟨waiters, done, eq⟩ := foldl_answer_eq p.raft results
      simp only [Raft.finishBatch, eq]
      exact leads
  | replicatePanic | takePanic | restorePanic | applyPanic | finishPanic => cases next
  | replicate | readSnapshot | send | propose | readIndex | refuseRead | startRead | checkRead
  | abandonRead | targetReady | sendTimeoutNow | takeSnapshot | takeEntries | restore
  | finishRestore | skip | apply | snapshotFailed | snapshot | snapshotOvertaken | snapshotTerm
  | saveFailed | saveSnapshot | compact =>
      cases next
      exact leads

theorem peaceful_step (step : Group.Peaceful cfg l healthy t M T g g') : Group.Step cfg M T g g' := by
  cases step with
  | act peaceful performs => exact ⟨_, Group.performs_step performs⟩
  | crash other crashes => exact ⟨_, Group.crashes_step crashes⟩

/-- The only leader of its term is not called by a leader of its term. -/
theorem leader_unchallenged {a : Abs ID} (rel : Rel cfg M a g) (tame : g.Tame cfg healthy t)
    (leads : (g.procs l).raft.state = .leader) (term : (g.procs l).raft.term = t) :
    (∀ sentAt req, Msg.appendEntries l sentAt req ∈ g.net → req.term < (g.procs l).raft.term) ∧
      ∀ sentAt req, Msg.installSnapshot l sentAt req ∈ g.net → req.term < (g.procs l).raft.term := by
  have lead := ((rel.nodes l).leads leads).leader
  have foreign {term' : Nat} {leader : ID} (led : a.leader term' = some leader)
      (le : term' ≤ t) (addressed : l ∈ cfg.others leader) : term' < (g.procs l).raft.term := by
    rw [term] at lead ⊢
    refine lt_of_le_of_ne le fun same => ?_
    rw [same, lead] at led
    obtain rfl := Option.some.inj led
    simp [Config.others] at addressed
  refine ⟨fun sentAt req there => ?_, fun sentAt req there => ?_⟩
  · have called : AppendRel a req := rel.msgs _ there
    have bound : req.term ≤ t ∧ l ∈ cfg.others req.leaderId := tame.net _ there
    exact foreign called.leader bound.1 bound.2
  · have called : InstallRel M a req := rel.msgs _ there
    have bound : req.term ≤ t ∧ l ∈ cfg.others req.leaderId := tame.net _ there
    exact foreign called.leader bound.1 bound.2

theorem peaceful_reigns (honours : T.HonoursContext) (reachable : Group.Reachable cfg M T g)
    (tame : g.Tame cfg healthy t) (tame' : g'.Tame cfg healthy t)
    (step : Group.Peaceful cfg l healthy t M T g g')
    (leads : (g.procs l).raft.state = .leader) (term : (g.procs l).raft.term = t) :
    (g'.procs l).raft.state = .leader ∧ (g'.procs l).raft.term = t := by
  obtain ⟨a, rel⟩ := reachable_rel honours reachable
  obtain ⟨n, moved⟩ := peaceful_step step
  obtain ⟨a', advance, rel'⟩ := rel_step honours rel moved
  have risen : (g.procs l).raft.term ≤ (g'.procs l).raft.term := by
    rw [(rel.nodes l).term, (rel'.nodes l).term]
    exact advance.grows.term l
  have bound := (tame'.nodes l).term
  refine ⟨?_, by omega⟩
  cases step with
  | @act m act peaceful performs =>
      obtain ⟨out, p, sent, s, enabled, stored, next, rfl⟩ := performs
      by_cases own : m = l
      · subst own
        obtain ⟨appends, installs⟩ := leader_unchallenged rel tame leads term
        simp only [Function.update_self]
        exact effect_reigns (exec_effect enabled.exec) peaceful
          (fun x input => tame.net x (enabled.received x input))
          (fun sentAt req input => appends sentAt req (enabled.received _ input))
          (fun sentAt req input => installs sentAt req (enabled.received _ input)) leads term next
      · simp only [Function.update_of_ne (Ne.symm own)]
        exact leads
  | @crash m other crashes =>
      rw [Group.stepOf_other (Group.crashes_step crashes) other.symm]
      exact leads

theorem play_peaceful {actions : List (ID × Action ID)}
    (h : Group.play cfg M T g actions = some g')
    (peaceful : ∀ x ∈ actions, ∀ p : Process ID σ, x.2.Peaceful cfg l healthy t x.1 p) :
    Relation.ReflTransGen (Group.Peaceful cfg l healthy t M T) g g' := by
  induction actions generalizing g with
  | nil => cases h; exact .refl
  | cons x rest ih =>
      obtain ⟨mid, first, h⟩ := Option.bind_eq_some_iff.mp h
      exact .head (.act (peaceful x (List.mem_cons_self ..) _) (Group.act_enabled first))
        (ih h fun y there => peaceful y (List.mem_cons_of_mem _ there))

end Runs

section Samples

/-- Node 2 was away when node 0 was elected. It times out, learns the term from the refusals,
times out again and asks for the next term, again in vain. -/
def returningRun : List (Nat × Action Nat) :=
  let late : RequestVoteRequest Nat :=
    { term := 1, candidateId := 2, lastLogIndex := 0, lastLogTerm := 0, preVote := true }
  let next : RequestVoteRequest Nat := { late with term := 2 }
  [(2, .election (.tick 0 true)), (2, .election .campaign),
    (1, .election (.requestVote late true)),
    (2, .election (.voteReply 1 late { term := 1 })), (2, .election .abandonCampaign),
    (2, .election (.tick 0 true)), (2, .election .campaign),
    (1, .election (.requestVote next true)),
    (2, .election (.voteReply 1 next { term := 1 }))]

end Samples

end EdgeKV
