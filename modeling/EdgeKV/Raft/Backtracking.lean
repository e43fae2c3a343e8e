import EdgeKV.Raft.Reign
import EdgeKV.Raft.Indexes
import EdgeKV.Raft.Scans

/-!
What a rejected `AppendEntries` tells the leader. The follower names the term that it has
at the rejected index and where that term begins; the leader goes back to its own last
entry of that term, or to the follower's first. Both lie below the rejected index.
-/
namespace EdgeKV

open Consensus (termAt)

variable {ID σ : Type}

section Refusals

variable {r r' : Raft ID} {req : AppendEntriesRequest ID} {resp : AppendEntriesResponse}

theorem storeEntries_success {entries : List Entry}
    (h : (r.storeEntries req entries).2 = some (r', resp)) : resp.success = true := by
  simp only [Raft.storeEntries] at h
  split at h
  · cases h
  · split at h
    · cases h
    · cases h
      rfl

/-- A rejection changes nothing but who is followed. -/
theorem appendEntriesLocked_unchanged (h : (r.appendEntriesLocked req).2 = some (r', resp))
    (refused : resp.success = false) : r' = r ∧ resp.term = r.term := by
  have stored {entries : List Entry} : (r.storeEntries req entries).2 ≠ some (r', resp) :=
    fun stored => nomatch (storeEntries_success stored).symm.trans refused
  have checked {prev : Nat} {entries : List Entry}
      (h : (r.checkEntries req prev entries).2 = some (r', resp)) : r' = r ∧ resp.term = r.term := by
    simp only [Raft.checkEntries] at h
    split at h
    · cases h
      exact ⟨rfl, rfl⟩
    · split at h
      · cases h
        exact ⟨rfl, rfl⟩
      · exact absurd h stored
  simp only [Raft.appendEntriesLocked] at h
  split at h
  · split at h
    · cases h
      cases refused
    · exact checked h
  · exact checked h

theorem handleAppendEntries_unchanged [DecidableEq ID]
    (h : (r.handleAppendEntries req).2 = some (r', resp)) (refused : resp.success = false)
    (behind : r.term ≤ req.term) :
    r' = (r.followLocked req.term req.leaderId).1 ∧ resp.term = r'.term := by
  simp only [Raft.handleAppendEntries] at h
  rw [if_neg (Nat.not_lt_of_le behind)] at h
  obtain ⟨rfl, term⟩ := appendEntriesLocked_unchanged h refused
  exact ⟨rfl, term⟩

/-- Why the consistency check fails: the log is too short, or has another term there. -/
def Raft.Mismatch (r : Raft ID) (req : AppendEntriesRequest ID)
    (resp : AppendEntriesResponse) : Prop :=
  (r.rlog.lastIndex < req.prevLogIndex ∧ resp.conflictTerm = 0 ∧
    resp.conflictIndex = r.rlog.lastIndex + 1) ∨
  (r.rlog.snapIndex ≤ req.prevLogIndex ∧ req.prevLogIndex ≤ r.rlog.lastIndex ∧
    (r.rlog.term req.prevLogIndex).getD 0 ≠ req.prevLogTerm ∧
    resp.conflictTerm = (r.rlog.term req.prevLogIndex).getD 0 ∧
    resp.conflictIndex ≤ req.prevLogIndex)

theorem appendEntriesLocked_refused (h : (r.appendEntriesLocked req).2 = some (r', resp))
    (refused : resp.success = false) : r.Mismatch req resp := by
  simp only [Raft.appendEntriesLocked, Raft.checkEntries] at h
  split at h
  next inside =>
    -- what is inside the snapshot is skipped, so there is nothing to compare
    split at h
    · cases h
      cases refused
    · have last : r.rlog.lastIndex = r.rlog.snapIndex + r.rlog.entries.length := rfl
      rw [if_neg (by omega), if_neg (by omega)] at h
      cases (storeEntries_success h).symm.trans refused
  next above =>
    split at h
    next short =>
      cases h
      exact Or.inl ⟨short, rfl, rfl⟩
    next long =>
      split at h
      next differs =>
        cases h
        exact Or.inr ⟨Nat.le_of_not_lt above, Nat.le_of_not_lt long, differs.2, rfl,
          r.rlog.firstIndexOfTerm_le _ _⟩
      · cases (storeEntries_success h).symm.trans refused

theorem handleAppendEntries_refused [DecidableEq ID]
    (h : (r.handleAppendEntries req).2 = some (r', resp)) (refused : resp.success = false)
    (current : resp.term ≤ req.term) : r.term ≤ req.term ∧ r.Mismatch req resp := by
  simp only [Raft.handleAppendEntries] at h
  split at h
  next stale =>
    cases h
    exact absurd stale (Nat.not_lt_of_le current)
  next notStale =>
    refine ⟨Nat.le_of_not_lt notStale, ?_⟩
    have mismatch := appendEntriesLocked_refused h refused
    simp only [Raft.Mismatch, (followLocked_eq r req.term req.leaderId).2] at mismatch
    exact mismatch

variable {cfg : Config ID} {M : StateMachine σ} {a a' : Abs ID} {n : ID} {p : Process ID σ}

/-- What a rejection tells the leader: the ledger of the conflicting term has an entry of
that term where the leader's log has one of another term. -/
structure Refusal (a : Abs ID) (req : AppendEntriesRequest ID) (resp : AppendEntriesResponse) :
    Prop where
  asked : AppendRel a req
  pos : 0 < req.prevLogIndex
  index : resp.conflictIndex ≤ req.prevLogIndex
  term : resp.conflictTerm ≠ 0 → resp.conflictTerm ≠ req.prevLogTerm ∧
    termAt Entry.term (a.ledger resp.conflictTerm) req.prevLogIndex = resp.conflictTerm

theorem refusal_grows (grows : Consensus.Grows n a a') (h : Refusal a req resp) :
    Refusal a' req resp := by
  refine ⟨appendRel_grows grows h.asked, h.pos, h.index, fun named => ?_⟩
  obtain ⟨differs, there⟩ := h.term named
  refine ⟨differs, ?_⟩
  have inside : req.prevLogIndex ≤ (a.ledger resp.conflictTerm).length := by
    by_contra beyond
    rw [Consensus.termAt_beyond (Nat.lt_of_not_le beyond)] at there
    exact named there.symm
  rw [← Consensus.termAt_eq_of_pre (grows.ledger _) inside]
  exact there

theorem mismatch_refusal (sound : Sound cfg a) (h : Node M a n p) (asked : AppendRel a req)
    (mismatch : p.raft.Mismatch req resp) : Refusal a req resp := by
  rcases mismatch with ⟨short, none, index⟩ | ⟨above, inside, differs, named, index⟩
  · exact ⟨asked, by omega, by omega, fun named => absurd none named⟩
  · rw [holds_lastIndex h.log] at inside
    rw [holds_term_some h.log above inside, Option.getD_some] at differs named
    have pos : 0 < req.prevLogIndex := by
      rcases Nat.eq_zero_or_pos req.prevLogIndex with zero | pos
      · rw [asked.prevTerm, zero, Consensus.termAt_zero, Consensus.termAt_zero] at differs
        exact absurd rfl differs
      · exact pos
    refine ⟨asked, pos, index, fun _ => ⟨named ▸ differs, ?_⟩⟩
    have pre := sound.inv.log_matched n req.prevLogIndex pos inside
    rw [← named] at pre
    rw [← Consensus.termAt_eq_of_pre pre (by rw [List.length_take]; omega),
      Consensus.termAt_take (Nat.le_refl _), named]

/-- What a node has acknowledged in a term it does not reject in that term. -/
theorem acked_accepts (sound : Sound cfg a) (h : Node M a n p) (asked : AppendRel a req)
    (behind : p.raft.term ≤ req.term) (pos : 0 < req.prevLogIndex)
    (acked : req.prevLogIndex ≤ a.acked n req.term) : ¬ p.raft.Mismatch req resp := by
  have current : a.term n = req.term :=
    Nat.le_antisymm (h.term ▸ behind) (sound.inv.acked_term (pos.trans_le acked))
  have pre := sound.inv.current current
  have size := pre.length_le
  rw [List.length_take] at size
  have bound := sound.inv.acked_le n req.term
  have inside : req.prevLogIndex ≤ (a.log n).length := by omega
  have same : termAt Entry.term (a.log n) req.prevLogIndex = req.prevLogTerm := by
    rw [asked.prevTerm, ← Consensus.termAt_eq_of_pre pre (by rw [List.length_take]; omega),
      Consensus.termAt_take acked]
  rintro (⟨short, -⟩ | ⟨above, -, differs, -⟩)
  · rw [holds_lastIndex h.log] at short
    omega
  · rw [holds_term_some h.log above inside, Option.getD_some] at differs
    exact differs same

/-- The hint never points at or beyond the rejected index: a leader that had an entry of
the conflicting term there would have the same log as the ledger of that term. -/
theorem refusal_retreats (sound : Sound cfg a) (h : Node M a n p) (leads : p.raft.state = .leader)
    (term : p.raft.term = req.term) (refusal : Refusal a req resp) :
    (if resp.conflictTerm ≠ 0 ∧ p.raft.rlog.lastIndexOfTerm resp.conflictTerm ≠ 0 then
      p.raft.rlog.lastIndexOfTerm resp.conflictTerm + 1 else resp.conflictIndex) ≤
        req.prevLogIndex := by
  split
  next named =>
    obtain ⟨differs, there⟩ := refusal.term named.1
    obtain ⟨e, held, same, index⟩ := RaftLog.lastIndexOfTerm_mem named.2
    obtain ⟨above, own⟩ := held_entry h.log (log_indexed sound n) held
    have log := sound.inv.leader_log (h.leads leads).leader h.term.symm
    rw [term] at log
    rw [log] at own
    rw [← index]
    by_contra beyond
    have inside := (List.getElem?_eq_some_iff.mp own).1
    have found : termAt Entry.term (a.ledger req.term) e.index = resp.conflictTerm := by
      rw [← Nat.sub_add_cancel (Nat.zero_lt_of_lt above), Consensus.termAt_succ, own,
        Option.map_some, Option.getD_some, same]
    have pre := Consensus.ledger_matched sound.inv req.term e.index (Nat.zero_lt_of_lt above)
      (by omega)
    rw [found] at pre
    rw [← Consensus.termAt_eq_of_pre pre (by rw [List.length_take]; omega),
      Consensus.termAt_take (by omega), ← refusal.asked.prevTerm] at there
    exact differs there.symm
  · exact refusal.index

end Refusals

section Answers

variable [DecidableEq ID] {cfg : Config ID} {self peer : ID} {r r' : Raft ID} {sentAt : Nat}

/-- An answer to a leader moves the indexes of the peer that gave it, and no others. -/
theorem appendReplyLocked_others {req : AppendEntriesRequest ID} {resp : AppendEntriesResponse}
    (h : r' = (r.recordAckLocked peer sentAt).appendReplyLocked cfg self peer req resp) {q : ID}
    (other : q ≠ peer) : r'.nextIndex q = r.nextIndex q ∧ r'.matchIndex q = r.matchIndex q := by
  obtain ⟨acked, eq⟩ := recordAckLocked_eq r peer sentAt
  simp only [eq, Raft.appendReplyLocked, Raft.advanceCommitLocked_eq] at h
  split at h
  · split at h
    · subst h
      exact ⟨Function.update_of_ne other .., Function.update_of_ne other ..⟩
    · subst h
      exact ⟨rfl, rfl⟩
  · subst h
    exact ⟨Function.update_of_ne other .., rfl⟩

theorem appendReplyLocked_accepted {req : AppendEntriesRequest ID} {resp : AppendEntriesResponse}
    (h : r' = (r.recordAckLocked peer sentAt).appendReplyLocked cfg self peer req resp)
    (success : resp.success = true) :
    (r.matchIndex peer < req.prevLogIndex + req.entries.length ∧
      r'.matchIndex peer = req.prevLogIndex + req.entries.length ∧
      r'.nextIndex peer = req.prevLogIndex + req.entries.length + 1) ∨
    (req.prevLogIndex + req.entries.length ≤ r.matchIndex peer ∧
      r'.matchIndex peer = r.matchIndex peer ∧ r'.nextIndex peer = r.nextIndex peer) := by
  obtain ⟨acked, eq⟩ := recordAckLocked_eq r peer sentAt
  simp only [eq, Raft.appendReplyLocked, Raft.advanceCommitLocked_eq, success, if_true] at h
  split at h
  next further =>
    subst h
    exact Or.inl ⟨further, Function.update_self .., Function.update_self ..⟩
  next known =>
    subst h
    exact Or.inr ⟨Nat.le_of_not_lt known, rfl, rfl⟩

theorem appendReplyLocked_rejected {req : AppendEntriesRequest ID} {resp : AppendEntriesResponse}
    (h : r' = (r.recordAckLocked peer sentAt).appendReplyLocked cfg self peer req resp)
    (refused : resp.success = false) :
    ∃ ackedSendTime, r' =
      { r with
        ackedSendTime
        nextIndex := Function.update r.nextIndex peer (max 1 (min
          (if resp.conflictTerm ≠ 0 ∧ r.rlog.lastIndexOfTerm resp.conflictTerm ≠ 0 then
            r.rlog.lastIndexOfTerm resp.conflictTerm + 1 else resp.conflictIndex)
          (r.rlog.lastIndex + 1))) } := by
  obtain ⟨acked, eq⟩ := recordAckLocked_eq r peer sentAt
  simp only [eq, Raft.appendReplyLocked, refused, Bool.false_eq_true, if_false] at h
  exact ⟨acked, h⟩

theorem installReplyLocked_others {req : InstallSnapshotRequest ID}
    (h : r' = (r.recordAckLocked peer sentAt).installReplyLocked cfg self peer req) {q : ID}
    (other : q ≠ peer) : r'.nextIndex q = r.nextIndex q ∧ r'.matchIndex q = r.matchIndex q := by
  obtain ⟨acked, eq⟩ := recordAckLocked_eq r peer sentAt
  simp only [eq, Raft.installReplyLocked, Raft.advanceCommitLocked_eq] at h
  split at h <;> subst h
  · exact ⟨Function.update_of_ne other .., Function.update_of_ne other ..⟩
  · exact ⟨Function.update_of_ne other .., rfl⟩

theorem installReplyLocked_next {req : InstallSnapshotRequest ID}
    (h : r' = (r.recordAckLocked peer sentAt).installReplyLocked cfg self peer req) :
    r'.nextIndex peer = r'.matchIndex peer + 1 := by
  obtain ⟨acked, eq⟩ := recordAckLocked_eq r peer sentAt
  simp only [eq, Raft.installReplyLocked, Raft.advanceCommitLocked_eq] at h
  split at h <;> (subst h; exact Function.update_self ..)

end Answers

section CatchUp

/-- What a leader builds for a peer: a request that starts at the peer's next index, or
the wish to send a snapshot. -/
theorem replicateOnce_cases {cfg : Config ID} {n peer : ID} {r : Raft ID} {call : Call ID}
    (built : r.replicateOnce cfg n peer = some (some call)) :
    r.state = .leader ∧ (call = .needSnapshot peer r.term ∨ ∃ req, call = .append peer req ∧
      req.term = r.term ∧ r.nextIndex peer = req.prevLogIndex + 1) := by
  simp only [Raft.replicateOnce] at built
  split at built
  · cases built
  next leading =>
    refine ⟨(not_not.mp leading).1, ?_⟩
    split at built
    · cases built
      exact Or.inl rfl
    next above =>
      split at built
      · cases built
      · cases built
        refine Or.inr ⟨_, rfl, rfl, ?_⟩
        simp only
        omega

theorem replicateOnce_calls {cfg : Config ID} {n peer : ID} {r : Raft ID}
    (leads : r.leading r.term) : ∃ call, r.replicateOnce cfg n peer = some (some call) := by
  obtain ⟨call, built⟩ := replicateOnce_built cfg n r peer
  cases call with
  | some call => exact ⟨call, built⟩
  | none =>
      simp only [Raft.replicateOnce, leads, not_true_eq_false, if_false] at built
      split at built
      · cases built
      · split at built <;> cases built

variable [DecidableEq ID]

/-- How a leader's requests to one peer end. -/
inductive Settlement
  | accepted
  | snapshot
  deriving DecidableEq, Repr

/-- What becomes of the requests that a leader makes of one follower, one after the other,
until one is accepted or a snapshot has to be sent. -/
def Raft.catchUp (cfg : Config ID) (self peer : ID) (sentAt : Nat) :
    Nat → Raft ID → Raft ID → Option Settlement
  | 0, _, _ => none
  | fuel + 1, leader, follower =>
      match leader.replicateOnce cfg self peer with
      | some (some (.append _ req)) =>
          match (follower.handleAppendEntries req).2 with
          | some (follower', resp) =>
              if resp.success then some .accepted
              else
                catchUp cfg self peer sentAt fuel
                  (leader.handleAppendReply cfg self peer sentAt req resp).1 follower'
          | none => none
      | some (some (.needSnapshot ..)) => some .snapshot
      | _ => none

variable {cfg : Config ID} {M : StateMachine σ} {a : Abs ID} {n peer : ID} {l f : Process ID σ}
  {sentAt : Nat} {req : AppendEntriesRequest ID} {resp : AppendEntriesResponse}

theorem handleAppendReply_current (cfg : Config ID) (n peer : ID) (sentAt : Nat) {r : Raft ID}
    (leads : r.state = .leader) (term : r.term = req.term) (current : resp.term ≤ r.term) :
    (r.handleAppendReply cfg n peer sentAt req resp).1 =
      (r.recordAckLocked peer sentAt).appendReplyLocked cfg n peer req resp := by
  simp only [Raft.handleAppendReply, Raft.onReply]
  rw [if_neg (Nat.not_lt_of_le current), if_neg]
  rintro (other | other)
  · exact other leads
  · exact other term

/-- A rejection moves the leader's next index for the follower back, and nothing else. -/
theorem node_refused (sound : Sound cfg a) (h : Node M a n l) (leads : l.raft.state = .leader)
    (term : l.raft.term = req.term) (refusal : Refusal a req resp) (refused : resp.success = false)
    {r' : Raft ID}
    (eq : r' = (l.raft.recordAckLocked peer sentAt).appendReplyLocked cfg n peer req resp) :
    Node M a n { l with raft := r' } ∧ r'.state = l.raft.state ∧ r'.term = l.raft.term ∧
      r'.stopped = l.raft.stopped ∧ 1 ≤ r'.nextIndex peer ∧
      r'.nextIndex peer ≤ req.prevLogIndex ∧ r'.nextIndex peer ≤ r'.rlog.lastIndex + 1 := by
  have retreats := refusal_retreats sound h leads term refusal
  have pos := refusal.pos
  obtain ⟨times, rfl⟩ := appendReplyLocked_rejected eq refused
  have acked : Node M a n { l with raft := { l.raft with ackedSendTime := times } } :=
    node_congr h rfl
  refine ⟨node_next acked leads peer _, rfl, rfl, rfl, ?_⟩
  simp only [Function.update_self]
  omega

/-- With the next index as fuel, the requests to a follower of the leader's term or an
earlier one come to an end. -/
theorem catchUp_settles {fuel : Nat} (sound : Sound cfg a) (leader : Node M a n l)
    (follower : Node M a peer f) (apart : n ≠ peer) (leads : l.raft.leading l.raft.term)
    (behind : f.raft.term ≤ l.raft.term) (positive : 1 ≤ l.raft.nextIndex peer)
    (enough : l.raft.nextIndex peer ≤ fuel) :
    ∃ settled, Raft.catchUp cfg n peer sentAt fuel l.raft f.raft = some settled := by
  induction fuel generalizing a l f with
  | zero => omega
  | succ fuel ih =>
      obtain ⟨call, built⟩ : ∃ call, l.raft.replicateOnce cfg n peer = some (some call) :=
        replicateOnce_calls leads
      have made := replicateOnce_call sound leader built
      obtain ⟨state, rfl | ⟨req, rfl, term, next⟩⟩ := replicateOnce_cases built
      · simp only [Raft.catchUp, built]
        exact ⟨_, rfl⟩
      · obtain ⟨⟨r', resp⟩, handled⟩ := handleAppendEntries_done sound follower made
        simp only [Raft.catchUp, built, handled]
        split
        · exact ⟨_, rfl⟩
        next failed =>
          have refused := Bool.eq_false_iff.mpr failed
          have notLater : f.raft.term ≤ req.term := term ▸ behind
          obtain ⟨rfl, same⟩ := handleAppendEntries_unchanged handled refused notLater
          obtain ⟨s, stored⟩ := followLocked_stored f.raft f.storage req.term req.leaderId
          obtain ⟨a', moves, node, followed, -⟩ :=
            (followLocked_sim sound follower notLater req.leaderId).done s stored
          have current : resp.term ≤ req.term := (same.trans followed).le
          obtain ⟨-, mismatch⟩ := handleAppendEntries_refused handled refused current
          obtain ⟨leader', state', term', stopped, positive', back, -⟩ :=
            node_refused sound leader state term.symm
              (mismatch_refusal sound follower made mismatch) refused
              (handleAppendReply_current cfg n peer sentAt state term.symm (term ▸ current))
          have enough' := back.trans (Nat.le_of_succ_le_succ (next ▸ enough))
          exact ih (moves.sound sound) (node_other (moves.grows sound) apart leader') node
            ⟨state'.trans state, rfl, stopped.trans leads.2.2⟩ (by rw [term', followed, term])
            positive' enough'

end CatchUp

end EdgeKV
