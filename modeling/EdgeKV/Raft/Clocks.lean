import EdgeKV.Raft.Simulation
import EdgeKV.Raft.Bearing

/-!
Clocks and calls. A node stamps each call with a fresh reading of its clock, and an
answer carries the stamp of its call: no node ever holds an answer to a call that it
has not sent yet. An answer also carries a term that the peer had reached before.
-/
namespace EdgeKV

variable {ID σ : Type}

section Stamps

/-- For a call and its answer: the leader that made it and when it was sent. -/
def Msg.stamp : Msg ID → Option (ID × Nat)
  | .appendEntries _ sentAt req => some (req.leaderId, sentAt)
  | .installSnapshot _ sentAt req => some (req.leaderId, sentAt)
  | .appendReply _ dst sentAt _ _ => some (dst, sentAt)
  | .installReply _ dst sentAt _ _ => some (dst, sentAt)
  | _ => none

/-- The call names node `n` as the leader. -/
def Call.Names (n : ID) : Call ID → Prop
  | .append _ req => req.leaderId = n
  | .needSnapshot _ _ => True
  | .install _ req => req.leaderId = n

theorem reply_stamp {m : Msg ID} {src dst : ID} {sentAt term : Nat}
    (h : m.reply = some (src, dst, sentAt, term)) : m.stamp = some (dst, sentAt) := by
  cases m <;> cases h <;> rfl

theorem messages_stamp {c : Call ID} {n l : ID} {now t : Nat} (names : c.Names n) {m : Msg ID}
    (sent : m ∈ c.messages now) (stamp : m.stamp = some (l, t)) : l = n ∧ t = now := by
  cases c with
  | append peer req =>
      obtain rfl := List.mem_singleton.mp sent
      cases stamp
      exact ⟨names, rfl⟩
  | needSnapshot peer term => cases sent
  | install peer req =>
      obtain rfl := List.mem_singleton.mp sent
      cases stamp
      exact ⟨names, rfl⟩

theorem messages_reply {c : Call ID} {now : Nat} {m : Msg ID} (sent : m ∈ c.messages now) :
    m.reply = none := by
  cases c with
  | append peer req => obtain rfl := List.mem_singleton.mp sent; rfl
  | needSnapshot peer term => cases sent
  | install peer req => obtain rfl := List.mem_singleton.mp sent; rfl

end Stamps

section Answers

variable (r : Raft ID)

theorem storeEntries_respTerm {req : AppendEntriesRequest ID} {entries : List Entry}
    {x : Raft ID × AppendEntriesResponse} (h : (r.storeEntries req entries).2 = some x) :
    x.2.term = r.term := by
  simp only [Raft.storeEntries] at h
  split at h
  · cases h
  · split at h
    · cases h
    · cases h; rfl

theorem checkEntries_respTerm {req : AppendEntriesRequest ID} {prevIndex : Nat}
    {entries : List Entry} {x : Raft ID × AppendEntriesResponse}
    (h : (r.checkEntries req prevIndex entries).2 = some x) : x.2.term = r.term := by
  simp only [Raft.checkEntries] at h
  split at h
  · cases h; rfl
  · split at h
    · cases h; rfl
    · exact storeEntries_respTerm r h

theorem appendEntriesLocked_respTerm {req : AppendEntriesRequest ID}
    {x : Raft ID × AppendEntriesResponse} (h : (r.appendEntriesLocked req).2 = some x) :
    x.2.term = r.term := by
  simp only [Raft.appendEntriesLocked] at h
  split at h
  · split at h
    · cases h; rfl
    · exact checkEntries_respTerm r h
  · exact checkEntries_respTerm r h

variable [DecidableEq ID]

theorem followLocked_term_le (term : Nat) (leader : ID) :
    r.term ≤ (r.followLocked term leader).1.term := by
  simp only [Raft.followLocked]
  split
  · rw [Raft.becomeFollowerLocked_eq]
    exact Nat.le_max_left _ _
  · exact Nat.le_refl _

/-- Answers to a leader carry a term that is at least the one before the call. -/
theorem handleAppendEntries_respTerm {req : AppendEntriesRequest ID}
    {x : Raft ID × AppendEntriesResponse} (h : (r.handleAppendEntries req).2 = some x) :
    r.term ≤ x.2.term := by
  simp only [Raft.handleAppendEntries] at h
  split at h
  · cases h; exact Nat.le_refl _
  · rw [appendEntriesLocked_respTerm _ h]
    exact followLocked_term_le r _ _

theorem handleInstallSnapshot_respTerm (req : InstallSnapshotRequest ID) :
    r.term ≤ (r.handleInstallSnapshot req).2.2.term := by
  simp only [Raft.handleInstallSnapshot]
  split
  · exact Nat.le_refl _
  · exact followLocked_term_le r _ _

end Answers

section Effects

/-- What an action does to the clock, the prepared calls and the answers on the wire. -/
structure Timing (n : ID) (p : Process ID σ) (act : Action ID) (p' : Process ID σ)
    (sent : List (Msg ID)) : Prop where
  clock : p.clock ≤ p'.clock
  calls : (∀ c ∈ p.calls, c.Names n) → ∀ c ∈ p'.calls, c.Names n
  stamps : (∀ c ∈ p.calls, c.Names n) → ∀ m ∈ sent, ∀ l t, m.stamp = some (l, t) →
    (l = n ∧ t ≤ p'.clock) ∨ ∃ m₀, act.input n = some m₀ ∧ m₀.stamp = some (l, t)
  replies : ∀ m ∈ sent, ∀ src dst sentAt term, m.reply = some (src, dst, sentAt, term) →
    src = n ∧ p.raft.term ≤ term

theorem Timing.silent {n : ID} {p p' : Process ID σ} {act : Action ID} {sent : List (Msg ID)}
    (clock : p.clock ≤ p'.clock) (calls : p'.calls = p.calls)
    (plain : ∀ m ∈ sent, m.stamp = none) : Timing n p act p' sent where
  clock := clock
  calls names := calls ▸ names
  stamps _ m hm l t stamp := by rw [plain m hm] at stamp; cases stamp
  replies m hm src dst sentAt term reply := by
    have stamp := plain m hm
    rw [reply_stamp reply] at stamp
    cases stamp

/-- A request is answered with its own stamp. -/
theorem Timing.answered {n : ID} {p p' : Process ID σ} {act : Action ID} {m m₀ : Msg ID}
    (clock : p.clock ≤ p'.clock) (calls : p'.calls = p.calls) (input : act.input n = some m₀)
    (stamp : m.stamp = m₀.stamp)
    (reply : ∀ src dst sentAt term, m.reply = some (src, dst, sentAt, term) →
      src = n ∧ p.raft.term ≤ term) : Timing n p act p' [m] where
  clock := clock
  calls names := calls ▸ names
  stamps _ x hx l t own := by
    rw [List.mem_singleton.mp hx, stamp] at own
    exact Or.inr ⟨m₀, input, own⟩
  replies x hx := by
    rw [List.mem_singleton.mp hx]
    exact reply

variable {cfg : Config ID} {self : ID} {M : StateMachine σ} {T : Transport}
  {p p' : Process ID σ} {act : Action ID} {out : Outcome ID σ} {sent : List (Msg ID)}

theorem solicit_plain {peers : List ID}
    {result : Raft ID × List (StorageOp ID) × Option (RequestVoteRequest ID)}
    (next : (p.solicit peers result).next = some (p', sent)) : ∀ m ∈ sent, m.stamp = none := by
  cases next
  intro m hm
  obtain ⟨req, -, hm⟩ := List.mem_flatMap.mp hm
  obtain ⟨peer, -, rfl⟩ := List.mem_map.mp hm
  rfl

/-- A call that is built for a peer names its sender. -/
theorem replicateOnce_names {peer : ID} {call : Call ID} {r : Raft ID}
    (built : r.replicateOnce cfg self peer = some (some call)) : call.Names self := by
  simp only [Raft.replicateOnce] at built
  split at built
  · cases built
  · split at built
    · cases built; trivial
    · split at built
      · cases built
      · cases built; rfl

variable [DecidableEq ID]

theorem effect_timing (h : Effect cfg self M T p act out) (next : out.next = some (p', sent)) :
    Timing self p act p' sent := by
  cases h with
  | campaign | wonPreVote =>
      have plain := solicit_plain next
      cases next
      exact .silent (Nat.le_refl _) rfl plain
  | wonElection round won real later =>
      obtain ⟨-, eq, rfl⟩ := tryLock_next next
      rw [eq]
      exact .silent later.le rfl fun m hm => by cases hm
  | appendProposals nonempty there batch =>
      obtain ⟨-, eq, rfl⟩ := tryLock_next next
      rw [eq]
      exact .silent (Nat.le_refl _) rfl fun m hm => by cases hm
  | requestVote | sendTimeoutNow =>
      cases next
      exact .silent (Nat.le_refl _) rfl fun m hm => by rw [List.mem_singleton.mp hm]; rfl
  | replicate other built =>
      cases next
      refine ⟨Nat.le_refl _, fun names c hc => ?_, fun _ m hm => (by cases hm), fun m hm => by cases hm⟩
      rcases List.mem_cons.mp hc with rfl | old
      · exact replicateOnce_names built
      · exact names c old
  | readSnapshot waiting =>
      cases next
      refine ⟨Nat.le_refl _, fun names c hc => ?_, fun _ m hm => (by cases hm), fun m hm => by cases hm⟩
      rcases List.mem_append.mp hc with new | old
      · obtain ⟨snapMeta, -, rfl⟩ := Option.map_eq_some_iff.mp (Option.mem_toList.mp new)
        rfl
      · exact names c (List.mem_of_mem_erase old)
  | @send call now built later =>
      cases next
      have inside {m : Msg ID} (hm : m ∈ if T.sendsCancelled ∨ p.raft.leading call.term then
          call.messages now else []) : m ∈ call.messages now := by
        split at hm
        · exact hm
        · cases hm
      refine ⟨later.le, fun names c hc => names c (List.mem_of_mem_erase hc),
        fun names m hm l t stamp => ?_, fun m hm src dst sentAt term reply => ?_⟩
      · obtain ⟨rfl, rfl⟩ := messages_stamp (names call built) (inside hm) stamp
        exact Or.inl ⟨rfl, Nat.le_refl _⟩
      · rw [messages_reply (inside hm)] at reply
        cases reply
  | appendEntries =>
      obtain ⟨x, handled, hx⟩ := Option.map_eq_some_iff.mp next
      cases hx
      refine .answered (Nat.le_refl _) rfl rfl rfl ?_
      intro src dst sentAt term reply
      cases reply
      exact ⟨rfl, handleAppendEntries_respTerm _ handled⟩
  | installSnapshot =>
      cases next
      refine .answered (Nat.le_refl _) rfl rfl rfl ?_
      intro src dst sentAt term reply
      cases reply
      exact ⟨rfl, handleInstallSnapshot_respTerm _ _⟩
  | refuseRead waiting later | startRead waiting later | startTransfer later =>
      cases next
      exact .silent later.le rfl fun m hm => by cases hm
  | replicatePanic | takePanic | restorePanic | applyPanic | finishPanic => cases next
  | checkQuorum | electionTimeout | abandonCampaign | voteReply | timeoutNow | appendReply
  | installReply | propose | readIndex | checkRead | abandonRead | targetReady | endTransfer
  | stop | takeSnapshot | takeEntries | restore | finishRestore | skip | apply | finishBatch
  | snapshotFailed | snapshot | snapshotOvertaken | snapshotTerm | saveFailed | saveSnapshot
  | compact =>
      cases next
      exact .silent (Nat.le_refl _) rfl fun m hm => by cases hm

end Effects

section Clocks

/-- No node has heard an answer, or sent a call, later than its clock says. -/
structure Timed (g : Group ID σ) : Prop where
  acked : ∀ n v, (g.procs n).raft.ackedSendTime v ≤ (g.procs n).clock
  calls : ∀ n, ∀ c ∈ (g.procs n).calls, c.Names n
  net : ∀ m ∈ g.net, ∀ l t, m.stamp = some (l, t) → t ≤ (g.procs l).clock

theorem timed_initial (M : StateMachine σ) : Timed (Group.initial M : Group ID σ) :=
  ⟨fun n v => Nat.le_refl _, fun n c hc => (by cases hc), fun m hm => by cases hm⟩

variable [DecidableEq ID] {cfg : Config ID} {M : StateMachine σ} {T : Transport}
  {g g' : Group ID σ} {n : ID} {p p' : Process ID σ} {act : Action ID}

theorem recordAck_acked (r : Raft ID) (peer : ID) (sentAt : Nat) (v : ID) :
    (r.recordAckLocked peer sentAt).ackedSendTime v = r.ackedSendTime v ∨
      (v = peer ∧ (r.recordAckLocked peer sentAt).ackedSendTime v = sentAt) := by
  simp only [Raft.recordAckLocked]
  split
  · by_cases same : v = peer
    · subst same
      exact Or.inr ⟨rfl, Function.update_self ..⟩
    · exact Or.inl (Function.update_of_ne same ..)
  · exact Or.inl rfl

/-- What an action does to the time of a peer's last answer. -/
theorem bearing_acked (h : Bearing cfg n M p act p') (v : ID) :
    p'.raft.ackedSendTime v = p.raft.ackedSendTime v ∨
    (p.raft.state = .candidate ∧ p'.raft.ackedSendTime v ≤ p'.clock) ∨
    ∃ m term, act.input n = some m ∧ m.reply = some (v, n, p'.raft.ackedSendTime v, term) ∧
      term ≤ p.raft.term := by
  cases h with
  | steady raft applier => exact Or.inl (congrFun raft.acked v)
  | @heard m peer sentAt respTerm input reply leads current raft applier =>
      rw [congrFun raft.acked v]
      rcases recordAck_acked p.raft peer sentAt v with same | ⟨rfl, new⟩
      · exact Or.inl same
      · rw [new]
        exact Or.inr (Or.inr ⟨m, respTerm, input, reply, current⟩)
  | @elected now later clock stood raft applier =>
      refine Or.inr (Or.inl ⟨stood, ?_⟩)
      rw [congrFun raft.acked v, clock]
      simp only
      split
      · exact Nat.le_refl _
      · exact Nat.zero_le _
  | proposed leads leads' term appended waiters done applied acked applier =>
      exact Or.inl (congrFun acked v)
  | staged waiters done acked applied fresh => exact Or.inl (congrFun acked v)
  | passed raft stage stage' applied => exact Or.inl (by rw [raft])
  | @finished results last raft stage final fresh =>
      obtain ⟨waiters, done, eq⟩ := foldl_answer_eq p.raft results
      refine Or.inl ?_
      simp only [raft, Raft.finishBatch, eq]

theorem clock_step (step : Group.StepOf cfg M T n g g') (m : ID) :
    (g.procs m).clock ≤ (g'.procs m).clock := by
  by_cases other : m = n
  · subst other
    cases step with
    | run enabled stored next =>
        simp only [Function.update_self]
        exact (effect_timing (exec_effect enabled.exec) next).clock
    | crash interrupted stored restarted =>
        obtain ⟨raft, machine, -, -, rfl⟩ := start_eq restarted
        simp only [Function.update_self]
        exact Nat.le_refl _
  · rw [Group.stepOf_other step other]

theorem timed_step (step : Group.StepOf cfg M T n g g') (h : Timed g) : Timed g' := by
  have clocks := clock_step step
  cases step with
  | @run act out p sent s enabled stored next =>
      have effect := exec_effect enabled.exec
      have timing := effect_timing effect next
      have old {m : Msg ID} {l : ID} {t : Nat} (there : m ∈ g.net) (stamp : m.stamp = some (l, t)) :
          t ≤ (Function.update g.procs n { p with storage := s } l).clock :=
        (h.net m there l t stamp).trans (clocks l)
      refine ⟨fun m v => ?_, fun m c hc => ?_, fun m hm l t stamp => ?_⟩
      · by_cases other : m = n
        · subst other
          simp only [Function.update_self]
          rcases bearing_acked (effect_bearing effect next) v with same | ⟨-, elected⟩ |
            ⟨m₀, term, input, reply, -⟩
          · rw [same]
            exact (h.acked m v).trans timing.clock
          · exact elected
          · exact (h.net m₀ (enabled.received m₀ input) m _ (reply_stamp reply)).trans timing.clock
        · simp only [Function.update_of_ne other]
          exact h.acked m v
      · by_cases other : m = n
        · subst other
          simp only [Function.update_self] at hc
          exact timing.calls (h.calls m) c hc
        · simp only [Function.update_of_ne other] at hc
          exact h.calls m c hc
      · rcases List.mem_append.mp hm with there | new
        · exact old there stamp
        · rcases timing.stamps (h.calls n) m new l t stamp with ⟨rfl, le⟩ | ⟨m₀, input, stamp'⟩
          · simpa only [Function.update_self] using le
          · exact old (enabled.received m₀ input) stamp'
  | @crash ops s p interrupted stored restarted =>
      obtain ⟨raft, machine, created, -, rfl⟩ := start_eq restarted
      obtain ⟨rlog, -, rfl⟩ := Option.map_eq_some_iff.mp created
      refine ⟨fun m v => ?_, fun m c hc => ?_, fun m hm l t stamp => ?_⟩
      · by_cases other : m = n
        · subst other
          simp only [Function.update_self]
          exact Nat.zero_le _
        · simp only [Function.update_of_ne other]
          exact h.acked m v
      · by_cases other : m = n
        · subst other
          simp only [Function.update_self] at hc
          cases hc
        · simp only [Function.update_of_ne other] at hc
          exact h.calls m c hc
      · exact (h.net m hm l t stamp).trans (clocks l)

theorem reachable_timed (h : Group.Reachable cfg M T g) : Timed g := by
  induction h with
  | refl => exact timed_initial M
  | tail _ step ih =>
      obtain ⟨n, step⟩ := step
      exact timed_step step ih

end Clocks
end EdgeKV
