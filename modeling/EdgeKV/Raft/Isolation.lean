import EdgeKV.Raft.Candidate
import EdgeKV.Raft.Indexes
import EdgeKV.Raft.Promises
import EdgeKV.Raft.ReadIndex

/-!
A node that hears nothing. It keeps timing out and asking, but a pre-vote round counts no
vote besides its own, so it takes up no new term and disturbs nobody when it is back. If
it was the leader it still accepts proposals and reads; it can confirm neither, and steps
down when a tick finds the last answers too old.
-/
namespace EdgeKV

variable {ID σ : Type}

/-- The round cannot be won with the votes counted so far, or it starts with a pre-vote. -/
def Campaign.Hopeless (cfg : Config ID) : Campaign ID → Prop
  | .starting skipPreVote => skipPreVote = false
  | .collecting _ granted => 1 + granted.length < cfg.quorum

def Raft.Hopeless (cfg : Config ID) (r : Raft ID) : Prop :=
  ∀ c, r.campaigning = some c → c.Hopeless cfg

namespace Group

variable [DecidableEq ID] (cfg : Config ID) (M : StateMachine σ) (T : Transport)

/-- A step in which the process of `n` lives on and gets no message. -/
inductive Deaf (n : ID) : Group ID σ → Group ID σ → Prop
  | other {g g' : Group ID σ} {m : ID} (differ : m ≠ n) (step : StepOf cfg M T m g g') :
      Deaf n g g'
  | act {g g' : Group ID σ} {a : Action ID} (deaf : a.input n = none)
      (performs : Performs cfg M T n a g g') : Deaf n g g'

/-- A step in which `n` gets no message, but may crash, also in the middle of an action. -/
inductive Cut (n : ID) : Group ID σ → Group ID σ → Prop
  | live {g g' : Group ID σ} (h : Deaf cfg M T n g g') : Cut n g g'
  | crash {g : Group ID σ} {ops : List (StorageOp ID)} {s : MemStorage ID} {p : Process ID σ}
      (begun : ops = [] ∨ ∃ a out, a.input n = none ∧ Enabled cfg M T g n a out ∧ ops <+: out.ops)
      (stored : (g.procs n).storage.performAll ops = some s)
      (restarted : Process.start M s (g.procs n).clock = some p) :
      Cut n g { g with procs := Function.update g.procs n p }

end Group

section Regions

variable {cfg : Config ID} {self : ID} {r r' : Raft ID}

theorem hopeless_idle (idle : r.campaigning = none) : r.Hopeless cfg := by
  intro c there
  rw [idle] at there
  cases there

/-- A round that has just begun has one vote. -/
theorem hopeless_fresh (many : 1 < cfg.quorum) {req : RequestVoteRequest ID}
    (fresh : r.campaigning = some (.collecting req [])) : r.Hopeless cfg := by
  intro c there
  rw [fresh] at there
  cases there
  exact many

theorem hopeless_congr (same : r'.campaigning = r.campaigning) (h : r.Hopeless cfg) :
    r'.Hopeless cfg := by
  intro c there
  exact h c (same ▸ there)

variable [DecidableEq ID]

omit [DecidableEq ID] in
theorem le_compactTo (l : RaftLog) (i t : Nat) : l.lastIndex ≤ (l.compactTo i t).lastIndex := by
  rw [RaftLog.compactTo]
  split
  · exact Nat.le_refl _
  · split
    next beyond => exact beyond
    · simp only [RaftLog.lastIndex, List.length_drop]
      omega

/-- What a node that hears nothing makes of its locked state. -/
structure Secluded (cfg : Config ID) (n : ID) (r r' : Raft ID) : Prop where
  hardState : r'.hardState = r.hardState
  hopeless : r'.Hopeless cfg
  leads : r'.state = .leader → r.state = .leader
  matched : r'.matchIndex = r.matchIndex
  acked : r'.ackedSendTime = r.ackedSendTime
  commit : r'.commitIndex = r.commitIndex ∨ r'.commitIndex = r'.commitCandidate cfg n
  last : r.rlog.lastIndex ≤ r'.rlog.lastIndex

/-- A region that keeps all of it but the round and the log. -/
theorem Secluded.of_eq (hopeless : r'.Hopeless cfg) (hardState : r'.hardState = r.hardState)
    (state : r'.state = r.state) (matched : r'.matchIndex = r.matchIndex)
    (acked : r'.ackedSendTime = r.ackedSendTime) (commit : r'.commitIndex = r.commitIndex)
    (last : r'.rlog.lastIndex = r.rlog.lastIndex) : Secluded cfg self r r' :=
  ⟨hardState, hopeless, fun h => state ▸ h, matched, acked, Or.inl commit, last.ge⟩

theorem Secluded.refl (h : r.Hopeless cfg) : Secluded cfg self r r :=
  .of_eq h rfl rfl rfl rfl rfl rfl

theorem checkQuorumLocked_secluded (h : r.Hopeless cfg) (now : Nat) :
    Secluded cfg self r (r.checkQuorumLocked cfg self now).1 := by
  simp only [Raft.checkQuorumLocked]
  split
  · exact .refl h
  · rw [Raft.becomeFollowerLocked_eq]
    refine ⟨?_, hopeless_congr rfl h, fun leads => (by cases leads), rfl, rfl, Or.inl rfl,
      Nat.le_refl _⟩
    simp [Raft.hardState]

theorem beginCampaign_secluded (many : 1 < cfg.quorum) :
    Secluded cfg self r (r.beginCampaign self false).1 := by
  simp only [Raft.beginCampaign]
  split
  · exact .of_eq (hopeless_idle rfl) rfl rfl rfl rfl rfl rfl
  · exact .of_eq (hopeless_fresh many rfl) rfl rfl rfl rfl rfl rfl

theorem appendProposals_secluded (h : r.Hopeless cfg) {batch : List Proposal}
    (done : (r.appendProposals cfg self batch).2 = some r') : Secluded cfg self r r' := by
  simp only [Raft.appendProposals] at done
  split at done
  · cases done
    exact .of_eq (hopeless_congr rfl h) rfl rfl rfl rfl rfl rfl
  next able =>
    have leads : r.state = .leader := by tauto
    split at done
    · cases done
    next rlog appended =>
      cases done
      have longer : r.rlog.lastIndex ≤ rlog.lastIndex := by
        rw [append_eq appended]
        simp only [RaftLog.lastIndex, List.length_append]
        omega
      rw [Raft.advanceCommitLocked_eq]
      refine ⟨rfl, hopeless_congr rfl h, fun _ => leads, rfl, rfl, ?_, longer⟩
      simp only
      split
      · exact Or.inr rfl
      · exact Or.inl rfl

omit [DecidableEq ID] in
theorem entries_neutral (es : List Entry) (hs : HardState ID) :
    StorageOp.hardState hs ∉ es.map StorageOp.entry := by
  intro there
  obtain ⟨e, -, eq⟩ := List.mem_map.mp there
  cases eq

theorem afterElection_neutral (r : Raft ID) (req : RequestVoteRequest ID) (now : Nat)
    (hs : HardState ID) : StorageOp.hardState hs ∉ (r.afterElection cfg self req now).1 := by
  intro there
  simp only [Raft.afterElection] at there
  split at there
  · simp only [Raft.becomeLeaderLocked] at there
    split at there
    · cases there
    · exact entries_neutral _ hs there
  · cases there

theorem appendProposals_neutral (r : Raft ID) (batch : List Proposal) (hs : HardState ID) :
    StorageOp.hardState hs ∉ (r.appendProposals cfg self batch).1 := by
  intro there
  simp only [Raft.appendProposals] at there
  split at there
  · cases there
  · split at there
    · cases there
    · exact entries_neutral _ hs there

end Regions

section Effects

variable [DecidableEq ID] {cfg : Config ID} {self : ID} {M : StateMachine σ} {T : Transport}
  {p p' : Process ID σ} {act : Action ID} {out : Outcome ID σ} {sent : List (Msg ID)}

/-- What an action does to the campaign of its node. -/
inductive Canvass (cfg : Config ID) (self : ID) (r : Raft ID) (act : Action ID)
    (ops : List (StorageOp ID)) (r' : Raft ID) : Prop
  | calm (h : Calm r r')
  | ended (campaigning : r'.campaigning = none)
  | timedOut {now : Nat} (timeout : act = .election (.tick now true)) (idle : r.state ≠ .leader)
      (eq : r' = { r with campaigning := some (.starting false) })
  | asked (starting : r.campaigning = some (.starting false)) (idle : r.state ≠ .leader)
      (eq : r' =
        { r with campaigning := some (.collecting (r.voteRequestLocked self (r.term + 1) true) []) })
  | stood (why : r.campaigning = some (.starting true) ∨ ∃ req granted,
        r.campaigning = some (.collecting req granted) ∧ cfg.quorum ≤ 1 + granted.length ∧
          req.preVote = true ∧ r.term + 1 = req.term)
      (eq : r' = (r.startElection self).1) (ops : ops = (r.startElection self).2.1)
  | counted {peer : ID} {req : RequestVoteRequest ID} {resp : RequestVoteResponse}
      {granted : List ID} (answered : act = .election (.voteReply peer req resp))
      (yes : resp.voteGranted = true) (first : peer ∉ granted)
      (before : r.campaigning = some (.collecting req granted))
      (round : r'.campaigning = some (.collecting req (peer :: granted)))
      (leads : r'.state = .leader → r.state = .leader ∧ r'.term = r.term)
  | told {req : TimeoutNowRequest ID} (told : act = .election (.timeoutNow req))
      (follower : r.state = .follower) (eq : r' = { r with campaigning := some (.starting true) })

theorem handleVoteReply_canvass (r : Raft ID) {ops : List (StorageOp ID)} (peer : ID)
    (req : RequestVoteRequest ID) (resp : RequestVoteResponse) :
    Canvass cfg self r (.election (.voteReply peer req resp)) ops
      (r.handleVoteReply peer req resp).1 := by
  have adopted : Calm r
      (if r.term < resp.term then r.becomeFollowerLocked resp.term none else (r, [])).1 := by
    split
    · exact (becomeFollowerLocked_quiet r resp.term none).toCalm
    · exact Calm.refl r
  simp only [Raft.handleVoteReply]
  split
  next round granted before =>
    rw [adopted.campaigning] at before
    split
    next counts =>
      obtain ⟨rfl, yes, first⟩ := counts
      exact .counted rfl yes first before rfl adopted.leads
    · exact .calm adopted
  · exact .calm adopted

theorem effect_canvass (h : Effect cfg self M T p act out) (next : out.next = some (p', sent)) :
    Canvass cfg self p.raft act out.ops p'.raft := by
  cases h with
  | electionTimeout running idle =>
      cases next
      simp only [Raft.electionTimeout]
      split
      · exact .calm (Calm.refl _)
      · exact .timedOut rfl idle rfl
  | @campaign skipPreVote starting =>
      cases next
      simp only [Process.solicit, Process.lock, Raft.beginCampaign]
      split
      · exact .ended rfl
      next able =>
        cases skipPreVote with
        | true => exact .stood (Or.inl starting) rfl rfl
        | false => exact .asked starting (fun leads => able (Or.inr leads)) rfl
  | @wonPreVote now req granted round won trial =>
      cases next
      simp only [Process.solicit, Process.lock, Raft.afterPreVote]
      split
      · exact .ended rfl
      next able =>
        have same : p.raft.term + 1 = req.term := by tauto
        exact .stood (Or.inr ⟨req, granted, round, won, trial, same⟩) rfl rfl
  | wonElection round won real later =>
      have done := (tryLock_next next).1
      simp only [Raft.afterElection] at done
      split at done
      · simp only [Raft.becomeLeaderLocked] at done
        split at done
        · cases done
        · rw [← Option.some.inj done, Raft.advanceCommitLocked_eq]
          exact .ended rfl
      · rw [← Option.some.inj done]
        exact .ended rfl
  | abandonCampaign round => cases next; exact .ended rfl
  | voteReply => cases next; exact handleVoteReply_canvass _ _ _ _
  | timeoutNow =>
      cases next
      simp only [Raft.handleTimeoutNow]
      split
      next able => exact .told rfl able.2.1 rfl
      · exact .calm (Calm.refl _)
  | checkQuorum running leads =>
      cases next
      refine .calm ?_
      simp only [Raft.checkQuorumLocked]
      split
      · exact Calm.refl _
      · exact (becomeFollowerLocked_quiet _ _ _).toCalm
  | requestVote => cases next; exact .calm (handleRequestVote_quiet _ _ _).toCalm
  | appendEntries =>
      obtain ⟨x, handled, hx⟩ := Option.map_eq_some_iff.mp next
      cases hx
      exact .calm (handleAppendEntries_quiet _ _ x handled).toCalm
  | appendReply =>
      cases next
      exact .calm (onReply_calm _ _ _ _ _ _ fun r => (appendReplyLocked_quiet r _ _ _ _ _).toCalm)
  | installSnapshot => cases next; exact .calm (handleInstallSnapshot_quiet _ _).toCalm
  | installReply =>
      cases next
      exact .calm (onReply_calm _ _ _ _ _ _ fun r => (installReplyLocked_quiet r _ _ _ _).toCalm)
  | appendProposals nonempty there batch =>
      exact .calm (appendProposals_calm p.raft cfg self _ _ (tryLock_next next).1)
  | startTransfer later started => cases next; exact .calm (startTransfer_quiet _ started).toCalm
  | endTransfer active =>
      cases next
      refine .calm ?_
      simp only [Raft.endTransfer]
      split <;> exact Calm.of_eq rfl rfl rfl
  | stop =>
      cases next
      refine .calm ?_
      simp only [Raft.stop]
      split <;> exact Calm.of_eq rfl rfl rfl
  | finishBatch stage final => cases next; exact .calm (finishBatch_calm _ _ _)
  | replicatePanic | takePanic | restorePanic | applyPanic | finishPanic => cases next
  | replicate | readSnapshot | send | propose | readIndex | refuseRead | startRead | checkRead
  | abandonRead | targetReady | sendTimeoutNow | takeSnapshot | takeEntries | restore
  | finishRestore | skip | apply | snapshotFailed | snapshot | snapshotOvertaken | snapshotTerm
  | saveFailed | saveSnapshot | compact =>
      cases next
      exact .calm (Calm.of_eq rfl rfl rfl)

theorem effect_secluded (h : Effect cfg self M T p act out) (deaf : act.input self = none)
    (many : 1 < cfg.quorum) (hopeless : p.raft.Hopeless cfg)
    (next : out.next = some (p', sent)) : Secluded cfg self p.raft p'.raft := by
  cases h with
  | checkQuorum running leads => cases next; exact checkQuorumLocked_secluded hopeless _
  | electionTimeout running idle =>
      cases next
      simp only [Raft.electionTimeout]
      split
      · exact .refl hopeless
      · refine .of_eq (fun c there => ?_) rfl rfl rfl rfl rfl rfl
        cases there
        rfl
  | @campaign skipPreVote starting =>
      cases next
      have trial : skipPreVote = false := hopeless _ starting
      subst trial
      exact beginCampaign_secluded many
  | @wonPreVote now req granted round won trial =>
      have few : 1 + granted.length < cfg.quorum := hopeless _ round
      omega
  | @wonElection now req granted round won real later =>
      have few : 1 + granted.length < cfg.quorum := hopeless _ round
      omega
  | abandonCampaign round =>
      cases next
      exact .of_eq (hopeless_idle rfl) rfl rfl rfl rfl rfl rfl
  | requestVote | voteReply | timeoutNow | appendEntries | appendReply | installSnapshot
  | installReply => cases deaf
  | appendProposals nonempty there batch =>
      exact appendProposals_secluded hopeless (tryLock_next next).1
  | startTransfer later started =>
      cases next
      obtain ⟨-, -, rfl, -⟩ := startTransfer_eq started
      exact .of_eq (hopeless_congr rfl hopeless) rfl rfl rfl rfl rfl rfl
  | endTransfer active =>
      cases next
      simp only [Raft.endTransfer]
      split <;> exact .of_eq (hopeless_congr rfl hopeless) rfl rfl rfl rfl rfl rfl
  | stop =>
      cases next
      simp only [Raft.stop]
      split <;> exact .of_eq (hopeless_congr rfl hopeless) rfl rfl rfl rfl rfl rfl
  | @finishBatch results last stage final =>
      cases next
      obtain ⟨waiters, done, eq⟩ := foldl_answer_eq p.raft results
      simp only [Raft.finishBatch, eq]
      exact .of_eq (hopeless_congr rfl hopeless) rfl rfl rfl rfl rfl rfl
  | @compact index term stage =>
      cases next
      exact ⟨rfl, hopeless_congr rfl hopeless, id, rfl, rfl, Or.inl rfl, le_compactTo _ index term⟩
  | replicatePanic | takePanic | restorePanic | applyPanic | finishPanic => cases next
  | replicate | readSnapshot | send | propose | readIndex | refuseRead | startRead | checkRead
  | abandonRead | targetReady | sendTimeoutNow | takeSnapshot | takeEntries | restore
  | finishRestore | skip | apply | snapshotFailed | snapshot | snapshotOvertaken | snapshotTerm
  | saveFailed | saveSnapshot =>
      cases next
      exact .of_eq (hopeless_congr rfl hopeless) rfl rfl rfl rfl rfl rfl

/-- The hard state is written only by a node that takes up the next term, which it does once:
the real round that begins then is hopeless. -/
theorem effect_ops (h : Effect cfg self M T p act out) (deaf : act.input self = none)
    (many : 1 < cfg.quorum) :
    (∀ hs, StorageOp.hardState hs ∉ out.ops) ∨
      (¬ p.raft.Hopeless cfg ∧ out.ops = [.hardState ⟨p.raft.term + 1, some self⟩] ∧
        ∀ p' sent, out.next = some (p', sent) → p'.raft.Hopeless cfg) := by
  have began (desperate : ¬ p.raft.Hopeless cfg) (sent : List (Msg ID)) :
      ¬ p.raft.Hopeless cfg ∧
        (p.lock ((p.raft.startElection self).1, (p.raft.startElection self).2.1) sent).ops =
          [.hardState ⟨p.raft.term + 1, some self⟩] ∧
        ∀ p' sent', (p.lock ((p.raft.startElection self).1,
          (p.raft.startElection self).2.1) sent).next = some (p', sent') →
          p'.raft.Hopeless cfg := by
    refine ⟨desperate, rfl, fun p' sent' next => ?_⟩
    cases next
    exact hopeless_fresh many rfl
  cases h with
  | checkQuorum running leads =>
      refine Or.inl fun hs there => ?_
      simp only [Process.lock, Raft.checkQuorumLocked] at there
      split at there
      · cases there
      · simp [Raft.becomeFollowerLocked_eq] at there
  | @campaign skipPreVote starting =>
      simp only [Process.solicit, Raft.beginCampaign]
      split
      · exact Or.inl fun hs there => by cases there
      · split
        next skips =>
          refine Or.inr (began (fun hopeless => ?_) _)
          have trial : skipPreVote = false := hopeless _ starting
          rw [trial] at skips
          cases skips
        · exact Or.inl fun hs there => by cases there
  | @wonPreVote now req granted round won trial =>
      simp only [Process.solicit, Raft.afterPreVote]
      split
      · exact Or.inl fun hs there => by cases there
      · refine Or.inr (began (fun hopeless => ?_) _)
        have few : 1 + granted.length < cfg.quorum := hopeless _ round
        omega
  | wonElection round won real later => exact Or.inl (afterElection_neutral _ _ _)
  | appendProposals nonempty small batch => exact Or.inl (appendProposals_neutral _ _)
  | @saveFailed index term data durable stage =>
      refine Or.inl fun hs there => ?_
      cases durable with
      | false => cases there
      | true => cases List.mem_singleton.mp there
  | saveSnapshot stage => exact Or.inl fun hs there => by cases List.mem_singleton.mp there
  | requestVote | voteReply | timeoutNow | appendEntries | appendReply | installSnapshot
  | installReply => cases deaf
  | electionTimeout | abandonCampaign | replicatePanic | replicate | readSnapshot | send | propose
  | readIndex | refuseRead | startRead | checkRead | abandonRead | startTransfer | targetReady
  | sendTimeoutNow | endTransfer | stop | takeSnapshot | takePanic | takeEntries | restorePanic
  | restore | finishRestore | skip | applyPanic | apply | finishPanic | finishBatch
  | snapshotFailed | snapshot | snapshotOvertaken | snapshotTerm | compact =>
      exact Or.inl fun hs there => by cases there

omit [DecidableEq ID] in
theorem hardStateAfter_neutral {hs : HardState ID} {ops : List (StorageOp ID)}
    (neutral : ∀ hs', StorageOp.hardState hs' ∉ ops) : hardStateAfter hs ops = hs := by
  induction ops with
  | nil => rfl
  | cons op ops ih =>
      have rest := ih fun hs' there => neutral hs' (List.mem_cons_of_mem _ there)
      cases op with
      | hardState hs' => exact absurd (List.mem_cons_self ..) (neutral hs')
      | entry e | snapshot snapMeta data discardLog => exact rest

end Effects

section Term

variable [DecidableEq ID] {cfg : Config ID} {M : StateMachine σ} {T : Transport} {n : ID}
  {g g' : Group ID σ}

namespace Group

theorem deaf_step (h : Deaf cfg M T n g g') : Step cfg M T g g' := by
  cases h with
  | other differ step => exact ⟨_, step⟩
  | act deaf performs => exact ⟨n, performs_step performs⟩

theorem cut_step (member : n ∈ cfg.peers) (h : Cut cfg M T n g g') : Step cfg M T g g' := by
  cases h with
  | live h => exact deaf_step h
  | crash begun stored restarted =>
      refine ⟨n, .crash ?_ stored restarted⟩
      rcases begun with rfl | ⟨a, out, -, enabled, begun⟩
      · exact .idle member
      · exact .during enabled begun

end Group

/-- What one step does to term and vote of a node that hears nothing: nothing, unless it takes up
the next term and has then a round that cannot be won. -/
inductive Stays (cfg : Config ID) (p p' : Process ID σ) : Prop
  | kept (hardState : p'.raft.hardState = p.raft.hardState)
      (hopeless : p.raft.Hopeless cfg →
        p'.raft.Hopeless cfg ∧ (p'.raft.state = .leader → p.raft.state = .leader))
  | stood (desperate : ¬ p.raft.Hopeless cfg) (term : p'.raft.term = p.raft.term + 1)
      (hopeless : p'.raft.Hopeless cfg)

theorem deaf_stays (many : 1 < cfg.quorum) (h : Group.Deaf cfg M T n g g') :
    Stays cfg (g.procs n) (g'.procs n) := by
  cases h with
  | other differ step =>
      rw [Group.stepOf_other step differ.symm]
      exact .kept rfl fun hopeless => ⟨hopeless, id⟩
  | act deaf performs =>
      obtain ⟨out, p, sent, s, enabled, stored, next, rfl⟩ := performs
      have effect := exec_effect enabled.exec
      have after := (effect_casts effect).after p.raft (by rw [Outcome.raft, next]; rfl)
      simp only [Function.update_self]
      rcases effect_ops effect deaf many with neutral | ⟨desperate, ops, hopeless⟩
      · rw [hardStateAfter_neutral neutral] at after
        refine .kept after.symm fun hopeless => ?_
        have secluded := effect_secluded effect deaf many hopeless next
        exact ⟨secluded.hopeless, secluded.leads⟩
      · rw [ops] at after
        exact .stood desperate (congrArg HardState.term after).symm (hopeless p sent next)

theorem cut_stays (many : 1 < cfg.quorum) (h : Group.Cut cfg M T n g g')
    (synced : (g.procs n).storage.hardState = (g.procs n).raft.hardState) :
    Stays cfg (g.procs n) (g'.procs n) := by
  cases h with
  | live h => exact deaf_stays many h
  | @crash ops s p begun stored restarted =>
      have saved := performAll_hardState _ _ _ stored
      obtain ⟨raft, machine, created, -, rfl⟩ := start_eq restarted
      obtain ⟨rlog, -, rfl⟩ := Option.map_eq_some_iff.mp created
      simp only [Function.update_self]
      have quiet (neutral : ∀ hs, StorageOp.hardState hs ∉ ops) :
          s.hardState = (g.procs n).raft.hardState := by
        rw [saved, hardStateAfter_neutral neutral, synced]
      rcases begun with rfl | ⟨a, out, deaf, enabled, begun⟩
      · refine .kept ?_ fun _ => ⟨hopeless_idle rfl, fun leads => by cases leads⟩
        exact quiet fun hs there => by cases there
      · rcases effect_ops (exec_effect enabled.exec) deaf many with neutral | ⟨desperate, eq, -⟩
        · refine .kept ?_ fun _ => ⟨hopeless_idle rfl, fun leads => by cases leads⟩
          exact quiet fun hs there => neutral hs (begun.subset there)
        · rw [eq] at begun
          -- the crash falls before or after the one write of the new term
          rcases List.prefix_cons_iff.mp begun with rfl | ⟨rest, rfl, nothing⟩
          · refine .kept ?_ fun _ => ⟨hopeless_idle rfl, fun leads => by cases leads⟩
            exact quiet fun hs there => by cases there
          · obtain rfl := List.prefix_nil.mp nothing
            refine .stood desperate ?_ (hopeless_idle rfl)
            rw [saved]
            rfl

theorem cuts_reachable (member : n ∈ cfg.peers) (reachable : Group.Reachable cfg M T g)
    (cut : Relation.ReflTransGen (Group.Cut cfg M T n) g g') : Group.Reachable cfg M T g' := by
  induction cut with
  | refl => exact reachable
  | tail _ step ih => exact ih.tail (Group.cut_step member step)

/-- Over a run: the node has not moved on, or it has by one term and has a hopeless round. -/
theorem cuts_term (many : 1 < cfg.quorum) (member : n ∈ cfg.peers)
    (reachable : Group.Reachable cfg M T g)
    (cut : Relation.ReflTransGen (Group.Cut cfg M T n) g g') :
    (g'.procs n).raft.term = (g.procs n).raft.term ∨
      ((g'.procs n).raft.term = (g.procs n).raft.term + 1 ∧ (g'.procs n).raft.Hopeless cfg) := by
  induction cut with
  | refl => exact Or.inl rfl
  | @tail g₁ g₂ cut step ih =>
      obtain ⟨V, ballots⟩ := reachable_ballots (cuts_reachable member reachable cut)
      cases cut_stays many step (ballots.nodes n).synced with
      | kept hardState hopeless =>
          have term : (g₂.procs n).raft.term = (g₁.procs n).raft.term :=
            congrArg HardState.term hardState
          rw [term]
          exact ih.imp_right fun moved => ⟨moved.1, (hopeless moved.2).1⟩
      | stood desperate term hopeless =>
          rcases ih with same | ⟨-, settled⟩
          · exact Or.inr ⟨term.trans (congrArg (· + 1) same), hopeless⟩
          · exact absurd settled desperate

theorem cuts_hopeless (many : 1 < cfg.quorum) (member : n ∈ cfg.peers)
    (reachable : Group.Reachable cfg M T g)
    (cut : Relation.ReflTransGen (Group.Cut cfg M T n) g g')
    (hopeless : (g.procs n).raft.Hopeless cfg) :
    (g'.procs n).raft.Hopeless cfg ∧
      (g'.procs n).raft.hardState = (g.procs n).raft.hardState ∧
      ((g'.procs n).raft.state = .leader → (g.procs n).raft.state = .leader) := by
  induction cut with
  | refl => exact ⟨hopeless, rfl, id⟩
  | @tail g₁ g₂ cut step ih =>
      obtain ⟨settled, same, leads⟩ := ih
      obtain ⟨V, ballots⟩ := reachable_ballots (cuts_reachable member reachable cut)
      cases cut_stays many step (ballots.nodes n).synced with
      | kept hardState kept =>
          obtain ⟨settled', leads'⟩ := kept settled
          exact ⟨settled', hardState.trans same, fun now => leads (leads' now)⟩
      | stood desperate => exact absurd settled desperate

/-- A node of a group of several that hears nothing, whether it lives on or crashes at any point,
moves on by at most one term; and not at all, nor does it vote or win an election, unless a round
was already won or about to skip the pre-vote. -/
theorem isolated_keeps_term (cfg : Config ID) (M : StateMachine σ) (T : Transport)
    (many : 1 < cfg.quorum) (n : ID) (member : n ∈ cfg.peers) (g g' : Group ID σ)
    (reachable : Group.Reachable cfg M T g)
    (cut : Relation.ReflTransGen (Group.Cut cfg M T n) g g') :
    (g'.procs n).raft.term ≤ (g.procs n).raft.term + 1 ∧
    ((g.procs n).raft.Hopeless cfg →
      (g'.procs n).raft.hardState = (g.procs n).raft.hardState ∧
      (g'.procs n).storage.hardState = (g.procs n).storage.hardState ∧
      ((g'.procs n).raft.state = .leader → (g.procs n).raft.state = .leader)) := by
  refine ⟨?_, fun hopeless => ?_⟩
  · rcases cuts_term many member reachable cut with same | ⟨next, -⟩ <;> omega
  · obtain ⟨-, same, leads⟩ := cuts_hopeless many member reachable cut hopeless
    obtain ⟨V, before⟩ := reachable_ballots reachable
    obtain ⟨V', after⟩ := reachable_ballots (cuts_reachable member reachable cut)
    refine ⟨same, ?_, leads⟩
    rw [(before.nodes n).synced, (after.nodes n).synced, same]

end Term

section Leader

variable [DecidableEq ID] {cfg : Config ID} {n : ID} {M : StateMachine σ} {T : Transport}
  {p₀ p p' : Process ID σ} {act : Action ID} {out : Outcome ID σ} {sent : List (Msg ID)}
  {a : Abs ID} {g g' : Group ID σ}

/-- A leader runs no campaign. -/
def Raft.Settled (r : Raft ID) : Prop := r.state = .leader → r.campaigning = none

theorem effect_settled (h : Effect cfg n M T p act out) (settled : p.raft.Settled)
    (next : out.next = some (p', sent)) : p'.raft.Settled := by
  intro leads
  cases effect_canvass h next with
  | calm calm => rw [calm.campaigning]; exact settled (calm.leads leads).1
  | ended campaigning => exact campaigning
  | timedOut timeout idle eq => rw [eq] at leads; exact absurd leads idle
  | asked starting idle eq => rw [eq] at leads; exact absurd leads idle
  | stood why eq ops => rw [eq] at leads; cases leads
  | counted answered yes first before round led => cases (settled (led leads).1).symm.trans before
  | told told follower eq => rw [eq] at leads; cases follower.symm.trans leads

theorem reachable_settled (h : Group.Reachable cfg M T g) (n : ID) : (g.procs n).raft.Settled := by
  induction h with
  | refl => exact fun _ => rfl
  | @tail g g' _ step ih =>
      obtain ⟨m, step⟩ := step
      by_cases own : n = m
      · subst own
        cases step with
        | run enabled stored next =>
            simp only [Function.update_self]
            exact effect_settled (exec_effect enabled.exec) ih next
        | crash interrupted stored restarted =>
            obtain ⟨raft, machine, created, -, rfl⟩ := start_eq restarted
            obtain ⟨rlog, -, rfl⟩ := Option.map_eq_some_iff.mp created
            simp only [Function.update_self]
            exact fun _ => rfl
      · rw [Group.stepOf_other step own]
        exact ih

/-- What stays true of a leader after it was cut off in the state `p₀`: it knows no more of its
peers, and what it took on since lies above all that it can commit. -/
structure Confined (cfg : Config ID) (p₀ p : Process ID σ) : Prop where
  hopeless : p.raft.Hopeless cfg
  matched : p.raft.matchIndex = p₀.raft.matchIndex
  acked : p.raft.ackedSendTime = p₀.raft.ackedSendTime
  commit : p.raft.commitIndex ≤ p₀.raft.rlog.lastIndex
  last : p₀.raft.rlog.lastIndex ≤ p.raft.rlog.lastIndex
  clock : p₀.clock ≤ p.clock
  waiters : ∀ i q, (i, q) ∈ p.raft.waiters →
    (i, q) ∈ p₀.raft.waiters ∨ p₀.raft.rlog.lastIndex < i
  told : ∀ q result, (q, .ok result) ∈ p.raft.done →
    (q, .ok result) ∈ p₀.raft.done ∨ ∃ i, (i, q) ∈ p₀.raft.waiters
  reader : ∀ batch term index start, p.reader = .confirming batch term index start →
    p₀.reader = .confirming batch term index start ∨ p₀.clock < start
  read : ∀ id index, (id, .ok index) ∈ p.readDone → (id, .ok index) ∈ p₀.readDone ∨
    ∃ batch term start, p₀.reader = .confirming batch term index start ∧ id ∈ batch

/-- Answers to calls that are all too old make no majority. -/
theorem no_quorumAck {r : Raft ID} {start : Nat} (many : 1 < cfg.quorum)
    (old : ∀ v, r.ackedSendTime v < start) : r.hasQuorumAckSinceLocked cfg n start = false := by
  have none : (cfg.others n).filter (fun v => start ≤ r.ackedSendTime v) = [] :=
    List.filter_eq_nil_iff.mpr fun v _ => by simpa using old v
  rw [Raft.hasQuorumAckSinceLocked, none]
  simpa using many

/-- No majority stores what lies above all that the peers are known to store. -/
theorem commitCandidate_le {r : Raft ID} (many : 1 < cfg.quorum) (member : n ∈ cfg.peers) {i : Nat}
    (known : ∀ v, r.matchIndex v ≤ i) : r.commitCandidate cfg n ≤ i := by
  by_contra above
  have stored : cfg.quorum ≤ (r.values cfg n).countP (r.commitCandidate cfg n ≤ ·) :=
    (commitCandidate_greatest r member).1
  have others : ((cfg.others n).map r.matchIndex).countP (r.commitCandidate cfg n ≤ ·) = 0 := by
    rw [List.countP_eq_zero]
    intro x there
    obtain ⟨v, -, rfl⟩ := List.mem_map.mp there
    have := known v
    simp only [decide_eq_true_eq]
    omega
  rw [Raft.values, List.countP_cons, others] at stored
  split at stored <;> omega

omit [DecidableEq ID] in
/-- An applied entry lies below the commit index. -/
theorem applied_index (sound : Sound cfg a) (h : Node M a n p) {entries : List Entry}
    {results : List (Entry × Bytes)} (stage : p.applier = .applying entries results)
    {x : Entry × Bytes} (there : x ∈ results) : x.1.index ≤ p.raft.commitIndex := by
  obtain ⟨k, at_⟩ := List.getElem?_of_mem there
  have inside := (List.getElem?_eq_some_iff.mp at_).1
  have index := log_indexed sound n _ x.1 (applying_results h.working stage at_)
  have bound := h.working.horizon_le
  simp only [Process.horizon, stage] at bound
  omega

theorem effect_confined (sound : Sound cfg a) (node : Node M a n p) (many : 1 < cfg.quorum)
    (member : n ∈ cfg.peers) (known : ∀ v, p₀.raft.matchIndex v ≤ p₀.raft.rlog.lastIndex)
    (heard : ∀ v, p₀.raft.ackedSendTime v ≤ p₀.clock) (h : Confined cfg p₀ p)
    (effect : Effect cfg n M T p act out) (deaf : act.input n = none)
    (next : out.next = some (p', sent)) : Confined cfg p₀ p' := by
  have secluded := effect_secluded effect deaf many h.hopeless next
  have bearing := effect_bearing effect next
  have reads := effect_reads effect next
  have matched := secluded.matched.trans h.matched
  refine ⟨secluded.hopeless, matched, secluded.acked.trans h.acked, ?_, h.last.trans secluded.last,
    h.clock.trans (effect_timing effect next).clock, ?_, ?_, ?_, ?_⟩
  · rcases secluded.commit with same | candidate
    · exact same ▸ h.commit
    · rw [candidate]
      exact commitCandidate_le many member fun v => matched ▸ known v
  · intro i q waits
    rcases bearing_waiters bearing waits with old | ⟨count, -, -, -, -, new⟩
    · exact h.waiters i q old
    · obtain ⟨k, q₀, -, rfl, -⟩ := batchWaiters_mem new
      have := h.last
      exact Or.inr (by omega)
  · intro q result told
    rcases bearing_told bearing told with old | ⟨results, x, stage, there, waits, -⟩
    · exact h.told q result old
    · have below := (applied_index sound node stage there).trans h.commit
      rcases h.waiters _ _ waits with before | above
      · exact Or.inr ⟨_, before⟩
      · omega
  · intro batch term index start confirming
    rcases reads.reader with same | idle | ⟨batch', now, later, started, -⟩
    · exact h.reader batch term index start (same ▸ confirming)
    · cases idle.symm.trans confirming
    · rw [confirming] at started
      simp only [Raft.startRead] at started
      split at started
      · cases started
      · split at started
        · cases started
        · cases started
          exact Or.inr (Nat.lt_of_le_of_lt h.clock later)
  · intro id index answered
    rcases reads.answers id index answered with old | ⟨batch, term, start, confirming, there, -, -, quorum⟩
    · exact h.read id index old
    · rcases h.reader batch term index start confirming with before | after
      · exact Or.inr ⟨batch, term, start, before, there⟩
      · rw [no_quorumAck many fun v => h.acked ▸ Nat.lt_of_le_of_lt (heard v) after] at quorum
        cases quorum

theorem deafs_cuts (h : Relation.ReflTransGen (Group.Deaf cfg M T n) g g') :
    Relation.ReflTransGen (Group.Cut cfg M T n) g g' := by
  induction h with
  | refl => exact .refl
  | tail _ step ih => exact ih.tail (.live step)

theorem deafs_confined (honours : T.HonoursContext) (many : 1 < cfg.quorum) (member : n ∈ cfg.peers)
    (reachable : Group.Reachable cfg M T g) (leads : (g.procs n).raft.state = .leader)
    (cut : Relation.ReflTransGen (Group.Deaf cfg M T n) g g') :
    Confined cfg (g.procs n) (g'.procs n) := by
  obtain ⟨a, rel⟩ := reachable_rel honours reachable
  have node := rel.nodes n
  have lead := node.leads leads
  have known (v : ID) : (g.procs n).raft.matchIndex v ≤ (g.procs n).raft.rlog.lastIndex := by
    rw [holds_lastIndex node.log, rel.sound.inv.leader_log lead.leader node.term.symm]
    exact (lead.matched v).trans (rel.sound.inv.acked_le v _)
  have heard := (reachable_timed reachable).acked n
  induction cut with
  | refl =>
      exact ⟨hopeless_idle (reachable_settled reachable n leads), rfl, rfl,
        (node_inOrder node).commit_le, Nat.le_refl _, Nat.le_refl _, fun _ _ => Or.inl,
        fun _ _ => Or.inl, fun _ _ _ _ => Or.inl, fun _ _ => Or.inl⟩
  | @tail g₁ g₂ cut step ih =>
      have reached := cuts_reachable member reachable (deafs_cuts cut)
      cases step with
      | other differ step =>
          rw [Group.stepOf_other step differ.symm]
          exact ih
      | act deaf performs =>
          obtain ⟨out, p, sent, s, enabled, stored, next, rfl⟩ := performs
          obtain ⟨a₁, rel₁⟩ := reachable_rel honours reached
          have confined := effect_confined rel₁.sound (rel₁.nodes n) many member known heard ih
            (exec_effect enabled.exec) deaf next
          simp only [Function.update_self]
          exact { confined with }

/-- A leader that is cut off commits nothing that it did not hold when it was cut off, so no write
that it took on since succeeds; it confirms no read that began since; and the first tick that is an
election timeout after the cut ends its leadership for as long as it is alone. -/
theorem isolated_leader (cfg : Config ID) (M : StateMachine σ) (T : Transport)
    (honours : T.HonoursContext) (many : 1 < cfg.quorum) (n : ID) (member : n ∈ cfg.peers)
    (g g' : Group ID σ) (reachable : Group.Reachable cfg M T g)
    (leads : (g.procs n).raft.state = .leader)
    (cut : Relation.ReflTransGen (Group.Deaf cfg M T n) g g') :
    (g'.procs n).raft.commitIndex ≤ (g.procs n).raft.rlog.lastIndex ∧
    (∀ q result, (q, .ok result) ∈ (g'.procs n).raft.done →
      (q, .ok result) ∈ (g.procs n).raft.done ∨ ∃ i, (i, q) ∈ (g.procs n).raft.waiters) ∧
    (∀ id index, (id, .ok index) ∈ (g'.procs n).readDone → (id, .ok index) ∈ (g.procs n).readDone ∨
      ∃ batch term start, (g.procs n).reader = .confirming batch term index start ∧ id ∈ batch) ∧
    ∀ now expired g₁ g₂, (g.procs n).clock + cfg.electionTimeoutMax < now →
      Group.Performs cfg M T n (.election (.tick now expired)) g' g₁ →
      Relation.ReflTransGen (Group.Deaf cfg M T n) g₁ g₂ → (g₂.procs n).raft.state ≠ .leader := by
  have confined := deafs_confined honours many member reachable leads cut
  refine ⟨confined.commit, confined.told, confined.read, fun now expired g₁ g₂ late tick after => ?_⟩
  have ticked : Group.Deaf cfg M T n g' g₁ := .act rfl tick
  have confined₁ := deafs_confined honours many member reachable leads (cut.tail ticked)
  have reachable₁ := cuts_reachable member reachable (deafs_cuts (cut.tail ticked))
  obtain ⟨-, -, kept⟩ := cuts_hopeless many member reachable₁ (deafs_cuts after) confined₁.hopeless
  intro leads₂
  have leads₁ := kept leads₂
  obtain ⟨out, p, sent, s, enabled, stored, next, rfl⟩ := tick
  simp only [Function.update_self] at leads₁
  have old (v : ID) : (g'.procs n).raft.ackedSendTime v < now - cfg.electionTimeoutMax := by
    have := (reachable_timed reachable).acked n v
    rw [confined.acked]
    omega
  cases exec_effect enabled.exec with
  | checkQuorum running leads' =>
      cases next
      simp only [Raft.checkQuorumLocked, no_quorumAck many old, Bool.false_eq_true, if_false,
        Raft.becomeFollowerLocked_eq] at leads₁
      cases leads₁
  | electionTimeout running idle =>
      cases next
      simp only [Raft.electionTimeout] at leads₁
      split at leads₁ <;> exact idle leads₁

end Leader

section Samples

variable [DecidableEq ID] {cfg : Config ID} {M : StateMachine σ} {T : Transport}

/-- A run in which no action of `n` takes a message. -/
theorem play_deafs {n : ID} {g g' : Group ID σ} {actions : List (ID × Action ID)}
    (h : Group.play cfg M T g actions = some g')
    (deaf : ∀ x ∈ actions, x.1 = n → x.2.input n = none) :
    Relation.ReflTransGen (Group.Deaf cfg M T n) g g' := by
  induction actions generalizing g with
  | nil => cases h; exact .refl
  | cons x rest ih =>
      obtain ⟨mid, first, h⟩ := Option.bind_eq_some_iff.mp h
      have step : Group.Deaf cfg M T n g mid := by
        by_cases own : x.1 = n
        · have performs := Group.act_enabled first
          rw [own] at performs
          exact .act (deaf x (List.mem_cons_self ..) own) performs
        · exact .other own (Group.performs_step (Group.act_enabled first))
      exact .head step (ih h fun y there => deaf y (List.mem_cons_of_mem _ there))

/-- Node 2 times out and asks for pre-votes while the others elect node 0. -/
theorem isolated_keeps_term_asking :
    ∃ g' : Group Nat Unit,
      Relation.ReflTransGen (Group.Cut trio idleMachine ⟨false⟩ 2) (Group.initial idleMachine) g' ∧
      (g'.procs 2).raft.campaigning ≠ none ∧ (g'.procs 0).raft.term = 1 ∧
      (g'.procs 2).raft.hardState = { term := 0, votedFor := none } := by
  obtain ⟨g', hg, asks, term⟩ : ∃ g', Group.play trio idleMachine ⟨false⟩
      (Group.initial idleMachine)
      ([(2, .election (.tick 0 true)), (2, .election .campaign)] ++ electedRun) = some g' ∧
      (g'.procs 2).raft.campaigning ≠ none ∧ (g'.procs 0).raft.term = 1 :=
    ⟨_, rfl, by decide, rfl⟩
  have cut := deafs_cuts (play_deafs (n := 2) hg (by decide))
  have kept := isolated_keeps_term trio idleMachine ⟨false⟩ (by decide) 2 (by decide) _ g' .refl cut
  exact ⟨g', cut, asks, term, (kept.2 (hopeless_idle rfl)).1⟩

/-- Node 0 has committed the no-op of its term when it is cut off. It takes on a proposal and a
read, which both hang. -/
theorem isolated_leader_hangs :
    ∃ g g' : Group Nat Unit, Group.Reachable trio idleMachine ⟨false⟩ g ∧
      Relation.ReflTransGen (Group.Deaf trio idleMachine ⟨false⟩ 0) g g' ∧
      (g'.procs 0).raft.state = .leader ∧ (g'.procs 0).raft.rlog.lastIndex = 2 ∧
      (g'.procs 0).reader = .confirming [7] 1 1 4 ∧ (g'.procs 0).raft.commitIndex ≤ 1 := by
  obtain ⟨g, hg, g', hg', leads, last, leads', last', reader⟩ :
      ∃ g, Group.play trio idleMachine ⟨false⟩ (Group.initial idleMachine) committedRun = some g ∧
        ∃ g', Group.play trio idleMachine ⟨false⟩ g
          [(0, .client (.propose 1 [5])), (0, .client (.appendProposals 1)),
            (0, .client (.readIndex 7)), (0, .client (.startRead 1 4))] = some g' ∧
          (g.procs 0).raft.state = .leader ∧ (g.procs 0).raft.rlog.lastIndex = 1 ∧
          (g'.procs 0).raft.state = .leader ∧ (g'.procs 0).raft.rlog.lastIndex = 2 ∧
          (g'.procs 0).reader = .confirming [7] 1 1 4 :=
    ⟨_, rfl, _, rfl, rfl, rfl, rfl, rfl, rfl⟩
  have reachable : Group.Reachable trio idleMachine ⟨false⟩ g := Group.play_steps hg
  have cut := play_deafs (n := 0) hg' (by decide)
  obtain ⟨commit, -⟩ := isolated_leader trio idleMachine ⟨false⟩ rfl (by decide) 0 (by decide) g g'
    reachable leads cut
  exact ⟨g, g', reachable, cut, leads', last', reader, last ▸ commit⟩

end Samples

end EdgeKV
