import EdgeKV.Raft.Replay
import EdgeKV.Raft.Clocks

/-!
The calls of `Propose`. Each makes a proposal with a channel of its own; the proposal
lies in the proposer's channel, then waits at a log index, and is answered once. What
is told with a result is committed at the index where its node appended it.
-/
namespace EdgeKV

open Consensus (CommittedBy Grows)

variable {ID σ : Type}

section Grounds

/-- The protocol state behind a group and the states it went through. -/
structure Grounded (cfg : Config ID) [DecidableEq ID] (M : StateMachine σ)
    (groups : List (Group ID σ)) (a : Abs ID) (g : Group ID σ) : Prop where
  rel : Rel cfg M a g
  promises : ∀ m, Promises M a m (g.procs m)
  witnessed : Witnessed groups a
  timed : Timed g
  current : g ∈ groups

variable [DecidableEq ID] {cfg : Config ID} {n : ID} {M : StateMachine σ} {T : Transport}
  {groups : List (Group ID σ)} {a : Abs ID} {g g' : Group ID σ}

theorem grounded_initial (M : StateMachine σ) :
    Grounded cfg M [Group.initial M] (Consensus.State.initial : Abs ID) (Group.initial M) :=
  ⟨rel_initial M, promises_initial M, witnessed_initial M, timed_initial M,
    List.mem_singleton_self _⟩

theorem grounded_step (honours : T.HonoursContext) (h : Grounded cfg M groups a g)
    (step : Group.StepOf cfg M T n g g') :
    ∃ a', Advance cfg n (g.procs n).proposeCh (g'.procs n).raft a a' ∧
      Grounded cfg M (g' :: groups) a' g' := by
  obtain ⟨a', advance, rel'⟩ := rel_step honours h.rel step
  exact ⟨a', advance, rel', promises_step h.rel rel' advance.grows step h.promises,
    witnessed_step h.rel rel' advance h.witnessed, timed_step step h.timed,
    List.mem_cons_self ..⟩

/-- A step of a call alone shows the group once more. -/
theorem grounded_stay (h : Grounded cfg M groups a g) : Grounded cfg M (g :: groups) a g where
  rel := h.rel
  promises := h.promises
  witnessed :=
    ⟨fun t k e below there => by
      obtain ⟨g₀, hg₀, knows⟩ := h.witnessed.known t k e below there
      exact ⟨g₀, List.mem_cons_of_mem _ hg₀, knows⟩,
    fun g₀ hg₀ e knows => by
      rcases List.mem_cons.mp hg₀ with rfl | before
      · exact h.witnessed.sound g₀ h.current e knows
      · exact h.witnessed.sound g₀ before e knows⟩
  timed := h.timed
  current := List.mem_cons_self ..

end Grounds

section Flow

/-- The proposals that a process has yet to answer. -/
def Process.pending (p : Process ID σ) : List Nat :=
  p.proposeCh.map (·.id) ++ p.raft.waiters.map (·.2.id)

/-- The call of `Propose` that the action begins. -/
def Action.call : Action ID → Option (Nat × Bytes)
  | .client (.propose id data) => some (id, data)
  | _ => none

/-- What was answered stays answered, and what is answered anew is not pending any more. -/
structure Flows (p : Process ID σ) (act : Action ID) (p' : Process ID σ) : Prop where
  flow : ∃ told, p'.raft.done = p.raft.done ++ told ∧
    (p'.pending ++ told.map (·.1.id)).Subperm (p.pending ++ (act.call.map Prod.fst).toList)

variable {p p' : Process ID σ} {act : Action ID}

theorem flows_settles (settles : Settles p.raft p'.raft) (channel : p'.proposeCh = p.proposeCh) :
    Flows p act p' := by
  obtain ⟨told, done, moved⟩ := settles
  refine ⟨told, done, ?_⟩
  rw [Process.pending, Process.pending, channel, List.append_assoc]
  exact ((List.subperm_append_left _).mpr moved).trans (List.sublist_append_left _ _).subperm

/-- One entry of a batch answers at most one proposal, which waited for it. -/
theorem answer_settles (r : Raft ID) (x : Entry × Bytes) : Settles r (r.answer x) := by
  simp only [Raft.answer]
  split
  · exact .refl r
  next q found =>
    refine ⟨_, rfl, ?_⟩
    have waits : (x.1.index, q) ∈ r.waiters := by
      obtain ⟨before, after, split, -⟩ := List.lookup_eq_some_iff.mp found
      rw [split]
      exact List.mem_append_right _ (List.mem_cons_self ..)
    have gone : [(x.1.index, q)].Sublist (r.waiters.filter fun w => !decide (w.1 ≠ x.1.index)) :=
      List.singleton_sublist.mpr (List.mem_filter.mpr ⟨waits, by simp⟩)
    have kept := (gone.append_left (r.waiters.filter fun w => decide (w.1 ≠ x.1.index))).map
      fun w => w.2.id
    rw [List.map_append] at kept
    exact kept.subperm.trans ((List.filter_append_perm _ r.waiters).map _).subperm

theorem answers_settles (r : Raft ID) (results : List (Entry × Bytes)) :
    Settles r (results.foldl Raft.answer r) := by
  induction results generalizing r with
  | nil => exact .refl r
  | cons x results ih => exact (answer_settles r x).trans (ih _)

theorem addWaiter_ids (ws new : List (Nat × Proposal)) :
    ((new.foldl Raft.addWaiter ws).map (·.2.id)).Sublist ((ws ++ new).map (·.2.id)) := by
  induction new generalizing ws with
  | nil => rw [List.append_nil]; exact List.Sublist.refl _
  | cons w new ih =>
      refine (ih (Raft.addWaiter ws w)).trans (List.Sublist.map _ ?_)
      rw [Raft.addWaiter, List.append_assoc]
      exact List.filter_sublist.append_right _

theorem batchWaiters_ids (r : Raft ID) (batch : List Proposal) :
    (r.batchWaiters batch).map (·.2.id) = batch.map (·.id) := by
  apply List.ext_getElem?
  intro k
  simp only [Raft.batchWaiters, List.getElem?_map, List.getElem?_mapIdx, Option.map_map]
  rfl

theorem stop_settles (r : Raft ID) : Settles r r.stop := by
  simp only [Raft.stop]
  split
  · exact .refl r
  · exact .failed rfl rfl

variable [DecidableEq ID] {cfg : Config ID} {n : ID} {M : StateMachine σ} {T : Transport}
  {out : Outcome ID σ} {sent : List (Msg ID)}

theorem onReply_settles (r : Raft ID) (respTerm reqTerm : Nat) (peer : ID) (sentAt : Nat)
    {handle : Raft ID → Raft ID} (handled : ∀ r, Settles r (handle r)) :
    Settles r (r.onReply respTerm reqTerm peer sentAt handle).1 := by
  simp only [Raft.onReply]
  split
  · exact (becomeFollowerLocked_quiet r respTerm none).toSettles
  · split
    · exact .refl r
    · refine Settles.trans ?_ (handled _)
      simp only [Raft.recordAckLocked]
      split <;> exact .of_eq rfl rfl

theorem handleVoteReply_settles (r : Raft ID) (peer : ID) (req : RequestVoteRequest ID)
    (resp : RequestVoteResponse) : Settles r (r.handleVoteReply peer req resp).1 := by
  have adopted : Settles r
      (if r.term < resp.term then r.becomeFollowerLocked resp.term none else (r, [])).1 := by
    split
    · exact (becomeFollowerLocked_quiet r resp.term none).toSettles
    · exact .refl r
  simp only [Raft.handleVoteReply]
  split
  · split
    · exact adopted.trans (.of_eq rfl rfl)
    · exact adopted
  · exact adopted

theorem afterElection_settles {r r' : Raft ID} {req : RequestVoteRequest ID} {now : Nat}
    (done : (r.afterElection cfg n req now).2 = some r') : Settles r r' := by
  simp only [Raft.afterElection] at done
  split at done
  · simp only [Raft.becomeLeaderLocked] at done
    split at done
    · cases done
    · cases done
      rw [Raft.advanceCommitLocked_eq]
      exact .of_eq rfl rfl
  · cases done
    exact .of_eq rfl rfl

/-- A batch is refused as a whole, or waits as a whole. -/
theorem appendProposals_flows {count : Nat} {r : Raft ID}
    (done : (p.raft.appendProposals cfg n (p.proposeCh.take count)).2 = some r) :
    Flows p act { p with raft := r, proposeCh := p.proposeCh.drop count } := by
  have parts : p.pending.Perm (((p.proposeCh.drop count).map (·.id) ++
      p.raft.waiters.map (·.2.id)) ++ (p.proposeCh.take count).map (·.id)) := by
    rw [Process.pending]
    nth_rewrite 1 [← List.take_append_drop count p.proposeCh]
    rw [List.map_append, List.append_assoc]
    exact List.perm_append_comm
  have rest := parts.symm.subperm.trans
    (List.sublist_append_left p.pending (act.call.map Prod.fst).toList).subperm
  simp only [Raft.appendProposals] at done
  split at done
  · cases done
    refine ⟨_, rfl, ?_⟩
    rw [List.map_map]
    exact rest
  · split at done
    · cases done
    next rlog appended =>
      cases done
      rw [Raft.advanceCommitLocked_eq]
      refine ⟨[], (List.append_nil _).symm, List.Subperm.trans ?_ rest⟩
      rw [Process.pending, List.map_nil, List.append_nil, List.append_assoc]
      refine (List.subperm_append_left _).mpr (List.Sublist.subperm ?_)
      have added := addWaiter_ids p.raft.waiters (p.raft.batchWaiters (p.proposeCh.take count))
      rw [List.map_append, batchWaiters_ids] at added
      exact added

theorem effect_flows (h : Effect cfg n M T p act out) (next : out.next = some (p', sent)) :
    Flows p act p' := by
  cases h with
  | checkQuorum running leads =>
      cases next
      refine flows_settles ?_ rfl
      simp only [Raft.checkQuorumLocked]
      split
      · exact .refl _
      · exact (becomeFollowerLocked_quiet _ _ _).toSettles
  | electionTimeout running idle =>
      cases next
      refine flows_settles ?_ rfl
      simp only [Raft.electionTimeout]
      split <;> exact .of_eq rfl rfl
  | campaign starting =>
      cases next
      refine flows_settles ?_ rfl
      simp only [Raft.beginCampaign]
      split
      · exact .of_eq rfl rfl
      · split <;> exact .of_eq rfl rfl
  | wonPreVote round won trial =>
      cases next
      refine flows_settles ?_ rfl
      simp only [Raft.afterPreVote]
      split <;> exact .of_eq rfl rfl
  | wonElection round won real later =>
      obtain ⟨done, eq, -⟩ := tryLock_next next
      rw [eq]
      exact flows_settles (afterElection_settles done) rfl
  | abandonCampaign round => cases next; exact flows_settles (.of_eq rfl rfl) rfl
  | requestVote => cases next; exact flows_settles (handleRequestVote_quiet _ _ _).toSettles rfl
  | voteReply => cases next; exact flows_settles (handleVoteReply_settles _ _ _ _) rfl
  | timeoutNow =>
      cases next
      refine flows_settles ?_ rfl
      simp only [Raft.handleTimeoutNow]
      split <;> exact .of_eq rfl rfl
  | appendEntries =>
      obtain ⟨x, handled, hx⟩ := Option.map_eq_some_iff.mp next
      cases hx
      exact flows_settles (handleAppendEntries_quiet _ _ x handled).toSettles rfl
  | appendReply =>
      cases next
      exact flows_settles (onReply_settles _ _ _ _ _ fun r =>
        (appendReplyLocked_quiet r _ _ _ _ _).toSettles) rfl
  | installSnapshot => cases next; exact flows_settles (handleInstallSnapshot_quiet _ _).toSettles rfl
  | installReply =>
      cases next
      exact flows_settles (onReply_settles _ _ _ _ _ fun r =>
        (installReplyLocked_quiet r _ _ _ _).toSettles) rfl
  | @propose id data running =>
      cases next
      refine ⟨[], (List.append_nil _).symm, List.Perm.subperm ?_⟩
      simp only [Process.pending, Action.call, List.map_append, List.map_nil, List.append_nil,
        List.map_cons, Option.map_some, Option.toList_some, List.append_assoc]
      exact List.Perm.append_left _ List.perm_append_comm
  | appendProposals nonempty there batch =>
      obtain ⟨done, eq, -⟩ := tryLock_next next
      rw [eq]
      exact appendProposals_flows done
  | startTransfer later started =>
      cases next
      exact flows_settles (startTransfer_quiet _ started).toSettles rfl
  | endTransfer active =>
      cases next
      refine flows_settles ?_ rfl
      simp only [Raft.endTransfer]
      split <;> exact .of_eq rfl rfl
  | stop => cases next; exact flows_settles (stop_settles _) rfl
  | finishBatch stage final =>
      cases next
      exact flows_settles ((answers_settles _ _).trans (.of_eq rfl rfl)) rfl
  | replicatePanic | takePanic | restorePanic | applyPanic | finishPanic => cases next
  | _ => cases next; exact flows_settles (.of_eq rfl rfl) rfl

end Flow

/-- A group with the `Propose` calls that were made in its run: for each call its number,
its node and its data, then where proposals were appended, and all that was sent on
their `done` channels. -/
structure Proposers (ID σ : Type) where
  group : Group ID σ
  history : List (Group ID σ)
  made : List (Nat × ID × Bytes) := []
  appended : List (ID × Nat × Proposal) := []
  sent : List (ID × Proposal × Except (RaftError ID) Bytes) := []

namespace Proposers

variable (w : Proposers ID σ)

/-- What an action of node `n` that leads to `g'` adds to the records. -/
def record (n : ID) (act : Action ID) (g' : Group ID σ) : Proposers ID σ where
  group := g'
  history := g' :: w.history
  made := (act.call.map fun c => (c.1, n, c.2)).toList ++ w.made
  appended := w.appended ++
    ((g'.procs n).raft.waiters.filter (· ∉ (w.group.procs n).raft.waiters)).map (Prod.mk n)
  sent := w.sent ++
    ((g'.procs n).raft.done.drop (w.group.procs n).raft.done.length).map (Prod.mk n)

/-- No earlier call has the number of the one that the action begins. -/
def Fresh (act : Action ID) : Prop := ∀ c, act.call = some c → c.1 ∉ w.made.map Prod.fst

instance (act : Action ID) : Decidable (w.Fresh act) :=
  match call : act.call with
  | none => isTrue fun _ there => nomatch call.symm.trans there
  | some c =>
      decidable_of_iff (c.1 ∉ w.made.map Prod.fst)
        ⟨fun fresh _ there => Option.some.inj (call.symm.trans there) ▸ fresh,
          fun fresh => fresh c call⟩

variable [DecidableEq ID] (cfg : Config ID) (M : StateMachine σ) (T : Transport)

/-- Every call of `Propose` makes a proposal of its own. -/
inductive Step : Proposers ID σ → Proposers ID σ → Prop
  | act {w : Proposers ID σ} {n : ID} {act : Action ID} {g' : Group ID σ}
      (performs : Group.Performs cfg M T n act w.group g') (fresh : w.Fresh act) :
      Step w (w.record n act g')
  | crash {w : Proposers ID σ} {n : ID} {g' : Group ID σ}
      (crashes : Group.Crashes cfg M T n w.group g') :
      Step w { w with group := g', history := g' :: w.history }

def initial : Proposers ID σ where
  group := Group.initial M
  history := [Group.initial M]

/-- The states of all runs in which each call of `Propose` has a number of its own. -/
def Reachable (w : Proposers ID σ) : Prop := Relation.ReflTransGen (Step cfg M T) (initial M) w

/-- A list of actions, executed one after the other. -/
def play (w : Proposers ID σ) : List (ID × Action ID) → Option (Proposers ID σ)
  | [] => some w
  | (n, act) :: rest =>
      if w.Fresh act then
        (Group.act cfg M T w.group n act).bind fun g' => play (w.record n act g') rest
      else none

variable {cfg M T}

theorem play_reachable {w w' : Proposers ID σ} {actions : List (ID × Action ID)}
    (reachable : Reachable cfg M T w) (h : play cfg M T w actions = some w') :
    Reachable cfg M T w' := by
  induction actions generalizing w with
  | nil => cases h; exact reachable
  | cons step rest ih =>
      rw [play] at h
      split at h
      next fresh =>
        obtain ⟨g', acted, h⟩ := Option.bind_eq_some_iff.mp h
        exact ih (reachable.tail (.act (Group.act_enabled acted) fresh)) h
      · cases h

end Proposers

section Accounts

variable {w : Proposers ID σ}

/-- The calls, the proposals in hand and what was sent on their channels: every proposal
is of one call, is in one place and is answered at most once. -/
structure Accounts (w : Proposers ID σ) : Prop where
  distinct : (w.made.map Prod.fst).Nodup
  offered : ∀ n, ∀ q ∈ (w.group.procs n).proposeCh, (q.id, n, q.data) ∈ w.made
  waiting : ∀ n, ∀ x ∈ (w.group.procs n).raft.waiters, (n, x) ∈ w.appended
  taken : ∀ n i q, (n, i, q) ∈ w.appended → (q.id, n, q.data) ∈ w.made ∧
    ∀ m, q.id ∉ (w.group.procs m).proposeCh.map (·.id)
  unique : ∀ x ∈ w.appended, ∀ y ∈ w.appended, x.2.2.id = y.2.2.id → x = y
  single : ∀ n, (w.group.procs n).pending.Nodup
  unanswered : ∀ n, ∀ id ∈ (w.group.procs n).pending, id ∉ w.sent.map (·.2.1.id)
  known : ∀ x ∈ w.sent, ∃ data, (x.2.1.id, x.1, data) ∈ w.made
  kept : ∀ n, ∀ x ∈ (w.group.procs n).raft.done, (n, x) ∈ w.sent
  once : (w.sent.map (·.2.1.id)).Nodup

/-- A call is made at one node. -/
theorem made_owner {made : List (Nat × ID × Bytes)} (distinct : (made.map Prod.fst).Nodup)
    {id : Nat} {n m : ID} {data data' : Bytes} (one : (id, n, data) ∈ made)
    (other : (id, m, data') ∈ made) : n = m := by
  have same := List.inj_on_of_nodup_map distinct one other rfl
  exact congrArg (fun c => c.2.1) same

/-- What a process has in hand was handed to it. -/
theorem accounts_pending (h : Accounts w) {n : ID} {id : Nat}
    (pending : id ∈ (w.group.procs n).pending) : ∃ data, (id, n, data) ∈ w.made := by
  rcases List.mem_append.mp pending with offered | waits
  · obtain ⟨q, there, rfl⟩ := List.mem_map.mp offered
    exact ⟨q.data, h.offered n q there⟩
  · obtain ⟨x, there, rfl⟩ := List.mem_map.mp waits
    exact ⟨x.2.data, (h.taken n x.1 x.2 (h.waiting n x there)).1⟩

variable {n : ID} {act : Action ID}

/-- What was in hand and is in hand or answered after an action, with the call that the
action begins. -/
theorem accounts_pool (h : Accounts w) (fresh : w.Fresh act) {ids : List Nat}
    (flow : ids.Subperm ((w.group.procs n).pending ++ (act.call.map Prod.fst).toList)) :
    ids.Nodup ∧ ∀ id ∈ ids, id ∉ w.sent.map (·.2.1.id) ∧
      ∃ data, (id, n, data) ∈ (act.call.map fun c => (c.1, n, c.2)).toList ++ w.made := by
  cases call : act.call with
  | none =>
      rw [call] at flow
      rw [Option.map_none, Option.toList_none, List.append_nil] at flow
      obtain ⟨ids', perm, sub⟩ := flow
      refine ⟨perm.nodup_iff.mp ((h.single n).sublist sub), fun id there => ?_⟩
      have pending := sub.subset (perm.mem_iff.mpr there)
      exact ⟨h.unanswered n id pending, accounts_pending h pending⟩
  | some c =>
      rw [call] at flow
      have new := fresh c call
      have notPending : c.1 ∉ (w.group.procs n).pending := by
        intro pending
        obtain ⟨data, made⟩ := accounts_pending h pending
        exact new (List.mem_map_of_mem made)
      have notSent : c.1 ∉ w.sent.map (·.2.1.id) := by
        intro told
        obtain ⟨x, there, same⟩ := List.mem_map.mp told
        obtain ⟨data, made⟩ := h.known x there
        rw [same] at made
        exact new (List.mem_map_of_mem made)
      obtain ⟨ids', perm, sub⟩ := flow
      have single : ((w.group.procs n).pending ++ [c.1]).Nodup :=
        List.nodup_append.mpr ⟨h.single n, List.nodup_singleton _, fun id pending id' own => by
          rw [List.mem_singleton.mp own]
          rintro rfl
          exact notPending pending⟩
      refine ⟨perm.nodup_iff.mp (single.sublist sub), fun id there => ?_⟩
      rcases List.mem_append.mp (sub.subset (perm.mem_iff.mpr there)) with pending | own
      · obtain ⟨data, made⟩ := accounts_pending h pending
        exact ⟨h.unanswered n id pending, data, List.mem_append_right _ made⟩
      · obtain rfl := List.mem_singleton.mp own
        exact ⟨notSent, c.2, List.mem_append_left _ (List.mem_singleton_self _)⟩

variable {g g' : Group ID σ}

theorem record_distinct (h : Accounts w) (fresh : w.Fresh act) :
    ((w.record n act g').made.map Prod.fst).Nodup := by
  cases call : act.call with
  | none =>
      simp only [Proposers.record, call, Option.map_none, Option.toList_none, List.nil_append]
      exact h.distinct
  | some c =>
      simp only [Proposers.record, call, Option.map_some, Option.toList_some,
        List.singleton_append, List.map_cons]
      exact List.nodup_cons.mpr ⟨fresh c call, h.distinct⟩

theorem record_made {c : Nat × ID × Bytes} (made : c ∈ w.made) : c ∈ (w.record n act g').made :=
  List.mem_append_right _ made

/-- Who is recorded as appended was so before, or waits now and did not before. -/
theorem record_appended {x : ID × Nat × Proposal} (h : x ∈ (w.record n act g').appended) :
    x ∈ w.appended ∨ (x.1 = n ∧ x.2 ∈ (g'.procs n).raft.waiters ∧
      x.2 ∉ (w.group.procs n).raft.waiters) := by
  rcases List.mem_append.mp h with old | new
  · exact Or.inl old
  · obtain ⟨y, there, rfl⟩ := List.mem_map.mp new
    obtain ⟨waits, first⟩ := List.mem_filter.mp there
    exact Or.inr ⟨rfl, waits, of_decide_eq_true first⟩

variable [DecidableEq ID] {cfg : Config ID} {M : StateMachine σ} {T : Transport}

theorem performs_flows (h : Group.Performs cfg M T n act g g') :
    Flows (g.procs n) act (g'.procs n) ∧ Bearing cfg n M (g.procs n) act (g'.procs n) ∧
      ∀ q ∈ (g'.procs n).proposeCh, q ∈ (g.procs n).proposeCh ∨
        act.call = some (q.id, q.data) := by
  obtain ⟨out, p, sent, s, enabled, stored, next, rfl⟩ := h
  simp only [Function.update_self]
  have effect := exec_effect enabled.exec
  refine ⟨⟨(effect_flows effect next).flow⟩, bearing_storage (effect_bearing effect next) s,
    fun q there => ?_⟩
  rcases (effect_inbox effect next).1 q there with old | ⟨id, data, rfl, rfl⟩
  · exact Or.inl old
  · exact Or.inr rfl

/-- What the action sends, and that it is sent to proposals that were in hand. -/
theorem record_sent (h : Accounts w) (performs : Group.Performs cfg M T n act w.group g')
    (fresh : w.Fresh act) :
    ∃ told, (g'.procs n).raft.done = (w.group.procs n).raft.done ++ told ∧
      (w.record n act g').sent = w.sent ++ told.map (Prod.mk n) ∧
      ((g'.procs n).pending ++ told.map (·.1.id)).Nodup ∧
      ∀ id ∈ (g'.procs n).pending ++ told.map (·.1.id), id ∉ w.sent.map (·.2.1.id) ∧
        ∃ data, (id, n, data) ∈ (w.record n act g').made := by
  obtain ⟨⟨told, done, flow⟩, -, -⟩ := performs_flows performs
  obtain ⟨single, pool⟩ := accounts_pool h fresh flow
  refine ⟨told, done, ?_, single, pool⟩
  simp only [Proposers.record, done, List.drop_left]

theorem record_offered (h : Accounts w) (performs : Group.Performs cfg M T n act w.group g')
    (m : ID) (q : Proposal) (there : q ∈ (g'.procs m).proposeCh) :
    (q.id, m, q.data) ∈ (w.record n act g').made := by
  by_cases own : m = n
  · subst own
    rcases (performs_flows performs).2.2 q there with old | call
    · exact record_made (h.offered m q old)
    · refine List.mem_append_left _ ?_
      rw [call]
      exact List.mem_singleton_self _
  · rw [Group.stepOf_other (Group.performs_step performs) own] at there
    exact record_made (h.offered m q there)

/-- A proposal that waits for the first time was in the channel, and its node has
appended it above its log. -/
theorem bearing_appended {p p' : Process ID σ} (h : Bearing cfg n M p act p') {x : Nat × Proposal}
    (waits : x ∈ p'.raft.waiters) (first : x ∉ p.raft.waiters) :
    p.raft.state = .leader ∧ p'.raft.state = .leader ∧ p'.raft.term = p.raft.term ∧
      ∃ k q, p.proposeCh[k]? = some q ∧
        x = (p.raft.rlog.lastIndex + 1 + k, { q with term := p.raft.term }) := by
  rcases bearing_waiters h waits with old | ⟨count, leads, leads', term, -, new⟩
  · exact absurd old first
  · obtain ⟨k, q, there, index, eq⟩ := batchWaiters_mem new
    refine ⟨leads, leads', term, k, q, ?_, Prod.ext index eq⟩
    rw [List.getElem?_take] at there
    split at there
    · exact there
    · cases there

/-- A proposal that waits for the first time was in the channel before. -/
theorem record_taken (h : Accounts w) (performs : Group.Performs cfg M T n act w.group g')
    {x : Nat × Proposal} (waits : x ∈ (g'.procs n).raft.waiters)
    (first : x ∉ (w.group.procs n).raft.waiters) : (x.2.id, n, x.2.data) ∈ w.made ∧
      x.2.id ∈ (w.group.procs n).proposeCh.map (·.id) := by
  obtain ⟨-, -, -, k, q, there, rfl⟩ := bearing_appended (performs_flows performs).2.1 waits first
  have offered := List.mem_of_getElem? there
  exact ⟨h.offered n q offered, List.mem_map.mpr ⟨q, offered, rfl⟩⟩

/-- What has been appended is in no channel any more. -/
theorem record_unoffered (h : Accounts w) (performs : Group.Performs cfg M T n act w.group g')
    (fresh : w.Fresh act) {x : ID × Nat × Proposal} (there : x ∈ (w.record n act g').appended)
    (m : ID) : x.2.2.id ∉ (g'.procs m).proposeCh.map (·.id) := by
  intro offered
  obtain ⟨q, inside, same⟩ := List.mem_map.mp offered
  rcases record_appended there with old | ⟨mine, waits, first⟩
  · obtain ⟨made, unoffered⟩ := h.taken x.1 x.2.1 x.2.2 old
    by_cases own : m = n
    · subst own
      rcases (performs_flows performs).2.2 q inside with before | call
      · exact unoffered m (List.mem_map.mpr ⟨q, before, same⟩)
      · exact fresh _ call (List.mem_map.mpr ⟨_, made, same.symm⟩)
    · rw [Group.stepOf_other (Group.performs_step performs) own] at inside
      exact unoffered m (List.mem_map.mpr ⟨q, inside, same⟩)
  · have made := record_offered h performs m q inside
    rw [same] at made
    obtain rfl := made_owner (record_distinct h fresh) made
      (record_made (record_taken h performs waits first).1)
    obtain ⟨told, -, -, single, -⟩ := record_sent h performs fresh
    have apart := (List.nodup_append.mp (List.nodup_append.mp single).1).2.2
    exact apart _ offered _ (List.mem_map_of_mem waits) rfl

theorem record_unique (h : Accounts w) (performs : Group.Performs cfg M T n act w.group g')
    (fresh : w.Fresh act) {x y : ID × Nat × Proposal} (hx : x ∈ (w.record n act g').appended)
    (hy : y ∈ (w.record n act g').appended) (same : x.2.2.id = y.2.2.id) : x = y := by
  rcases record_appended hx with old | ⟨mine, waits, first⟩
  · rcases record_appended hy with old' | ⟨mine', waits', first'⟩
    · exact h.unique x old y old' same
    · exact absurd (same ▸ (record_taken h performs waits' first').2)
        ((h.taken x.1 x.2.1 x.2.2 old).2 n)
  · rcases record_appended hy with old' | ⟨mine', waits', first'⟩
    · exact absurd (same ▸ (record_taken h performs waits first).2)
        ((h.taken y.1 y.2.1 y.2.2 old').2 n)
    · obtain ⟨told, -, -, single, -⟩ := record_sent h performs fresh
      have ids := (List.nodup_append.mp (List.nodup_append.mp single).1).2.1
      exact Prod.ext (mine.trans mine'.symm) (List.inj_on_of_nodup_map ids waits waits' same)

theorem accounts_act (h : Accounts w) (performs : Group.Performs cfg M T n act w.group g')
    (fresh : w.Fresh act) : Accounts (w.record n act g') := by
  have rest {m : ID} (other : m ≠ n) : g'.procs m = w.group.procs m :=
    Group.stepOf_other (Group.performs_step performs) other
  obtain ⟨told, done, sent, single, pool⟩ := record_sent h performs fresh
  obtain ⟨pending, new, apart⟩ := List.nodup_append.mp single
  have distinct : ((w.record n act g').made.map Prod.fst).Nodup := record_distinct h fresh
  refine ⟨distinct, record_offered h performs, fun m x waits => ?_, fun m i q there => ⟨?_, ?_⟩,
    fun x hx y hy => record_unique h performs fresh hx hy, fun m => ?_, fun m id open_ => ?_,
    fun x there => ?_, fun m x there => ?_, ?_⟩
  · by_cases own : m = n
    · subst own
      by_cases old : x ∈ (w.group.procs m).raft.waiters
      · exact List.mem_append_left _ (h.waiting m x old)
      · exact List.mem_append_right _ (List.mem_map_of_mem
          (List.mem_filter.mpr ⟨waits, decide_eq_true old⟩))
    · simp only [Proposers.record, rest own] at waits
      exact List.mem_append_left _ (h.waiting m x waits)
  · rcases record_appended there with old | ⟨mine, waits, first⟩
    · exact record_made (h.taken m i q old).1
    · obtain rfl : m = n := mine
      exact record_made (record_taken h performs waits first).1
  · exact record_unoffered h performs fresh there
  · by_cases own : m = n
    · subst own
      exact pending
    · simp only [Proposers.record, rest own]
      exact h.single m
  · rw [sent, List.map_append, List.mem_append, not_or, List.map_map]
    by_cases own : m = n
    · subst own
      refine ⟨(pool id (List.mem_append_left _ open_)).1, fun there => ?_⟩
      exact apart id open_ id there rfl
    · simp only [Proposers.record, rest own] at open_
      refine ⟨h.unanswered m id open_, fun there => ?_⟩
      obtain ⟨data, made⟩ := accounts_pending h open_
      obtain ⟨data', made'⟩ := (pool id (List.mem_append_right _ there)).2
      exact own (made_owner distinct (record_made made) made')
  · rw [sent] at there
    rcases List.mem_append.mp there with old | added
    · obtain ⟨data, made⟩ := h.known x old
      exact ⟨data, record_made made⟩
    · obtain ⟨y, now, rfl⟩ := List.mem_map.mp added
      exact (pool _ (List.mem_append_right _ (List.mem_map_of_mem now))).2
  · rw [sent]
    by_cases own : m = n
    · subst own
      simp only [Proposers.record, done] at there
      rcases List.mem_append.mp there with old | added
      · exact List.mem_append_left _ (h.kept m x old)
      · exact List.mem_append_right _ (List.mem_map_of_mem added)
    · simp only [Proposers.record, rest own] at there
      exact List.mem_append_left _ (h.kept m x there)
  · rw [sent, List.map_append, List.map_map]
    refine List.nodup_append.mpr ⟨h.once, new, ?_⟩
    rintro id old _ there rfl
    exact (pool id (List.mem_append_right _ there)).1 old

/-- A crash loses the proposals that its process had in hand. -/
theorem accounts_crash (h : Accounts w) (crashes : Group.Crashes cfg M T n w.group g') :
    Accounts { w with group := g', history := g' :: w.history } := by
  have rest {m : ID} (other : m ≠ n) : g'.procs m = w.group.procs m :=
    Group.stepOf_other (Group.crashes_step crashes) other
  have empty : (g'.procs n).proposeCh = [] ∧ (g'.procs n).raft.waiters = [] ∧
      (g'.procs n).raft.done = [] := by
    obtain ⟨ops, s, p, -, -, restarted, rfl⟩ := crashes
    obtain ⟨raft, machine, created, -, rfl⟩ := start_eq restarted
    obtain ⟨rlog, -, rfl⟩ := Option.map_eq_some_iff.mp created
    simp only [Function.update_self, and_self]
  have fewer (m : ID) : (g'.procs m).proposeCh.Sublist (w.group.procs m).proposeCh ∧
      (g'.procs m).raft.waiters.Sublist (w.group.procs m).raft.waiters ∧
      (g'.procs m).raft.done.Sublist (w.group.procs m).raft.done := by
    by_cases own : m = n
    · subst own
      rw [empty.1, empty.2.1, empty.2.2]
      exact ⟨List.nil_sublist _, List.nil_sublist _, List.nil_sublist _⟩
    · rw [rest own]
      exact ⟨.refl _, .refl _, .refl _⟩
  have pending (m : ID) : (g'.procs m).pending.Sublist (w.group.procs m).pending :=
    ((fewer m).1.map _).append ((fewer m).2.1.map _)
  exact
    { distinct := h.distinct
      offered := fun m q there => h.offered m q ((fewer m).1.subset there)
      waiting := fun m x waits => h.waiting m x ((fewer m).2.1.subset waits)
      taken := fun m i q there => ⟨(h.taken m i q there).1, fun k offered =>
        (h.taken m i q there).2 k (((fewer k).1.map _).subset offered)⟩
      unique := h.unique
      single := fun m => (h.single m).sublist (pending m)
      unanswered := fun m id open_ => h.unanswered m id ((pending m).subset open_)
      known := h.known
      kept := fun m x there => h.kept m x ((fewer m).2.2.subset there)
      once := h.once }

end Accounts

section Assigned

variable {M : StateMachine σ} {a a' : Abs ID} {n : ID} {w : Proposers ID σ}

/-- Where proposals were appended: each has a place of its own in the ledger of its term,
and one that was told its result is committed there. -/
structure Assigned (M : StateMachine σ) (a : Abs ID) (w : Proposers ID σ) : Prop where
  placed : ∀ n i q, (n, i, q) ∈ w.appended →
    a.leader q.term = some n ∧ 0 < i ∧ (a.ledger q.term)[i - 1]? = some (q.entry i)
  apart : ∀ x ∈ w.appended, ∀ y ∈ w.appended, x.2.1 = y.2.1 → x.2.2.term = y.2.2.term → x = y
  answered : ∀ n q result, (n, q, .ok result) ∈ w.sent → ∃ P,
    (n, P.length + 1, q) ∈ w.appended ∧ (∃ t, CommittedBy a t (P ++ [q.entry (P.length + 1)])) ∧
      Produces M P (q.entry (P.length + 1)) result

theorem placed_grows {m : ID} {i : Nat} {q : Proposal} (grows : Grows n a a')
    (h : a.leader q.term = some m ∧ 0 < i ∧ (a.ledger q.term)[i - 1]? = some (q.entry i)) :
    a'.leader q.term = some m ∧ 0 < i ∧ (a'.ledger q.term)[i - 1]? = some (q.entry i) :=
  ⟨grows.leader h.1, h.2.1, getElem?_of_pre (grows.ledger _) h.2.2⟩

theorem assigned_grows (grows : Grows n a a') (h : Assigned M a w) (g' : Group ID σ)
    (history : List (Group ID σ)) : Assigned M a' { w with group := g', history } where
  placed m i q there := placed_grows grows (h.placed m i q there)
  apart := h.apart
  answered m q result told := by
    obtain ⟨P, there, ⟨t, committed⟩, produced⟩ := h.answered m q result told
    exact ⟨P, there, ⟨t, Consensus.committedBy_grows grows committed⟩, produced⟩

variable [DecidableEq ID] {cfg : Config ID} {T : Transport} {act : Action ID} {g' : Group ID σ}

/-- A new place lies beyond all that the ledger of its term had. -/
theorem record_beyond (rel : Rel cfg M a w.group) (h : Assigned M a w)
    (performs : Group.Performs cfg M T n act w.group g') {x y : ID × Nat × Proposal}
    (old : y ∈ w.appended) (waits : x.2 ∈ (g'.procs n).raft.waiters)
    (first : x.2 ∉ (w.group.procs n).raft.waiters) (term : y.2.2.term = x.2.2.term) :
    y.2.1 < x.2.1 := by
  obtain ⟨leads, -, -, k, q, -, eq⟩ := bearing_appended (performs_flows performs).2.1 waits first
  obtain ⟨-, pos, there⟩ := h.placed y.1 y.2.1 y.2.2 old
  have inside := (List.getElem?_eq_some_iff.mp there).1
  have node := rel.nodes n
  have log := rel.sound.inv.leader_log (node.leads leads).leader node.term.symm
  rw [term, eq, ← log, ← holds_lastIndex node.log] at inside
  rw [eq]
  simp only
  omega

theorem record_apart (rel : Rel cfg M a w.group) (h : Assigned M a w)
    (performs : Group.Performs cfg M T n act w.group g') {x y : ID × Nat × Proposal}
    (hx : x ∈ (w.record n act g').appended) (hy : y ∈ (w.record n act g').appended)
    (index : x.2.1 = y.2.1) (term : x.2.2.term = y.2.2.term) : x = y := by
  rcases record_appended hx with old | ⟨mine, waits, first⟩
  · rcases record_appended hy with old' | ⟨mine', waits', first'⟩
    · exact h.apart x old y old' index term
    · have beyond := record_beyond rel h performs old waits' first' term
      omega
  · rcases record_appended hy with old' | ⟨mine', waits', first'⟩
    · have beyond := record_beyond rel h performs old' waits first term.symm
      omega
    · have bearing := (performs_flows performs).2.1
      obtain ⟨-, -, -, k, q, there, eq⟩ := bearing_appended bearing waits first
      obtain ⟨-, -, -, k', q', there', eq'⟩ := bearing_appended bearing waits' first'
      rw [eq, eq'] at index
      obtain rfl : k = k' := by
        simp only at index
        omega
      obtain rfl := Option.some.inj (there.symm.trans there')
      exact Prod.ext (mine.trans mine'.symm) (eq.trans eq'.symm)

theorem assigned_act (ground : Grounded cfg M w.history a w.group)
    (ground' : Grounded cfg M (g' :: w.history) a' g') (grows : Grows n a a') (accounts : Accounts w)
    (h : Assigned M a w) (performs : Group.Performs cfg M T n act w.group g') (fresh : w.Fresh act) :
    Assigned M a' (w.record n act g') := by
  have bearing := (performs_flows performs).2.1
  have before {m : ID} {q : Proposal} {result : Bytes} (told : (m, q, .ok result) ∈ w.sent) :=
    (assigned_grows grows h g' []).answered m q result told
  refine ⟨fun m i q there => ?_, fun x hx y hy => record_apart ground.rel h performs hx hy,
    fun m q result told => ?_⟩
  · rcases record_appended there with old | ⟨mine, waits, first⟩
    · exact placed_grows grows (h.placed m i q old)
    · obtain rfl : m = n := mine
      obtain ⟨-, leads', term, k, q₀, -, eq⟩ := bearing_appended bearing waits first
      have own : q.term = (w.group.procs m).raft.term := by
        rw [(Prod.mk.inj eq).2]
      refine ⟨?_, (ground'.promises m).waiters i q waits⟩
      rw [own, ← term]
      exact ((ground'.rel.nodes m).leads leads').leader
  · obtain ⟨now, done, sent, -, -⟩ := record_sent accounts performs fresh
    have earlier (told : (m, q, .ok result) ∈ w.sent) :
        ∃ P, (m, P.length + 1, q) ∈ (w.record n act g').appended ∧
          (∃ t, CommittedBy a' t (P ++ [q.entry (P.length + 1)])) ∧
          Produces M P (q.entry (P.length + 1)) result := by
      obtain ⟨P, there, rest⟩ := before told
      exact ⟨P, List.mem_append_left _ there, rest⟩
    rw [sent] at told
    rcases List.mem_append.mp told with old | new
    · exact earlier old
    · obtain ⟨y, inside, eq⟩ := List.mem_map.mp new
      obtain ⟨rfl, rfl⟩ := Prod.mk.inj eq
      have answered : (q, .ok result) ∈ (g'.procs n).raft.done := by
        rw [done]
        exact List.mem_append_right _ inside
      rcases bearing_told bearing answered with old | ⟨results, x, stage, there, waits, same, rfl⟩
      · exact earlier (accounts.kept n _ old)
      · obtain ⟨P, index, -, committed, produced⟩ := answered_entry ground.rel.sound
          (ground.rel.nodes n) (ground.promises n) stage there waits same
        refine ⟨P, List.mem_append_left _ ?_, ⟨_, Consensus.committedBy_grows grows committed⟩,
          produced⟩
        rw [index]
        exact accounts.waiting n _ waits

end Assigned

section Runs

theorem accounts_initial (M : StateMachine σ) : Accounts (Proposers.initial M : Proposers ID σ) where
  distinct := List.nodup_nil
  offered _ _ there := nomatch there
  waiting _ _ waits := nomatch waits
  taken _ _ _ there := nomatch there
  unique _ there := nomatch there
  single _ := List.nodup_nil
  unanswered _ _ open_ := nomatch open_
  known _ there := nomatch there
  kept _ _ there := nomatch there
  once := List.nodup_nil

theorem assigned_initial (M : StateMachine σ) :
    Assigned M (Consensus.State.initial : Abs ID) (Proposers.initial M) :=
  ⟨fun _ _ _ there => (nomatch there), fun _ there => (nomatch there),
    fun _ _ _ told => (nomatch told)⟩

variable [DecidableEq ID] {cfg : Config ID} {M : StateMachine σ} {T : Transport}
  {w : Proposers ID σ}

theorem reachable_assigned (honours : T.HonoursContext) (reachable : w.Reachable cfg M T) :
    ∃ a, Grounded cfg M w.history a w.group ∧ Accounts w ∧ Assigned M a w := by
  induction reachable with
  | refl => exact ⟨_, grounded_initial M, accounts_initial M, assigned_initial M⟩
  | tail _ step ih =>
      obtain ⟨a, ground, accounts, places⟩ := ih
      cases step with
      | act performs fresh =>
          obtain ⟨a', advance, ground'⟩ := grounded_step honours ground
            (Group.performs_step performs)
          exact ⟨a', ground', accounts_act accounts performs fresh,
            assigned_act ground ground' advance.grows accounts places performs fresh⟩
      | crash crashes =>
          obtain ⟨a', advance, ground'⟩ := grounded_step honours ground (Group.crashes_step crashes)
          exact ⟨a', ground', accounts_crash accounts crashes, assigned_grows advance.grows places _ _⟩

/-- A call of `Propose` that returns a result is committed, at the index where its node
appended it, and the result is what the machine returned after all that is committed
below; no two such calls have an index in common, a call has one index, and no channel
is sent to twice. -/
theorem propose_committed (cfg : Config ID) (M : StateMachine σ) (T : Transport)
    (honours : T.HonoursContext) (w : Proposers ID σ) (reachable : w.Reachable cfg M T) :
    (∀ n q result, (n, q, .ok result) ∈ w.sent → ∃ i P, (n, i, q) ∈ w.appended ∧
      (q.id, n, q.data) ∈ w.made ∧ Group.CommittedLog w.history i (P ++ [q.entry i]) ∧
      ∃ s s', Reflects M s P ∧ (M.RoundTrips → M.replay P = some s) ∧
        M.apply s i q.data = some (s', result)) ∧
    (∀ n m i q q' result result', (n, q, .ok result) ∈ w.sent → (m, q', .ok result') ∈ w.sent →
      (n, i, q) ∈ w.appended → (m, i, q') ∈ w.appended → n = m ∧ q = q') ∧
    (∀ n m i j q q', (n, i, q) ∈ w.appended → (m, j, q') ∈ w.appended → q.id = q'.id →
      n = m ∧ i = j ∧ q = q') ∧
    (w.sent.map (·.2.1.id)).Nodup := by
  obtain ⟨a, ground, accounts, places⟩ := reachable_assigned honours reachable
  have unique {n m : ID} {i j : Nat} {q q' : Proposal} (one : (n, i, q) ∈ w.appended)
      (other : (m, j, q') ∈ w.appended) (same : q.id = q'.id) : n = m ∧ i = j ∧ q = q' := by
    obtain ⟨rfl, eq⟩ := Prod.mk.inj (accounts.unique _ one _ other same)
    obtain ⟨rfl, rfl⟩ := Prod.mk.inj eq
    exact ⟨rfl, rfl, rfl⟩
  refine ⟨fun n q result told => ?_, fun n m i q q' result result' told told' one other => ?_,
    fun n m i j q q' one other => unique one other, accounts.once⟩
  · obtain ⟨P, there, ⟨t, committed⟩, s, s', reflects, applied⟩ := places.answered n q result told
    refine ⟨P.length + 1, P, there, (accounts.taken n _ q there).1, ?_, s, s', reflects,
      fun trips => M.reflects_replay trips reflects, applied⟩
    exact committedLog_of ground.rel.sound ground.witnessed committed List.length_append
  · obtain ⟨P, there, ⟨t, committed⟩, -⟩ := places.answered n q result told
    obtain ⟨Q, there', ⟨u, committed'⟩, -⟩ := places.answered m q' result' told'
    obtain ⟨-, rfl, -⟩ := unique one there rfl
    obtain ⟨-, same, -⟩ := unique other there' rfl
    -- both are committed at one index, so they are one entry, of one term
    have length : P.length = Q.length := Nat.succ.inj same
    have agree := Consensus.committed_agree ground.rel.sound.inv committed committed'
      (i := P.length) (by simp) (by simp [length])
    rw [List.getElem?_concat_length, length, List.getElem?_concat_length] at agree
    have term : q.term = q'.term := congrArg Entry.term (Option.some.inj agree)
    obtain ⟨rfl, eq⟩ := Prod.mk.inj (places.apart _ one _ other rfl term)
    exact ⟨rfl, (Prod.mk.inj eq).2⟩

theorem propose_committed_journal :
    ∃ w : Proposers Nat Bytes, w.Reachable trio journal ⟨false⟩ ∧
      (0, ⟨0, [5], 1⟩, .ok []) ∈ w.sent ∧ ∃ P, Group.CommittedLog w.history 2
        (P ++ [{ index := 2, term := 1, type := .normal, data := [5] }]) ∧
        journal.replay P = some [] := by
  obtain ⟨w, played, appended, told⟩ : ∃ w : Proposers Nat Bytes,
      Proposers.play trio journal ⟨false⟩ (Proposers.initial journal) journalRun = some w ∧
      w.appended = [(0, 2, ⟨0, [5], 1⟩)] ∧ (0, ⟨0, [5], 1⟩, .ok []) ∈ w.sent :=
    ⟨_, rfl, rfl, List.mem_singleton_self _⟩
  have reachable := Proposers.play_reachable .refl played
  have trips : journal.RoundTrips := fun s data captured => congrArg some captured
  obtain ⟨i, P, there, -, log, s, s', -, replayed, applied⟩ :=
    (propose_committed trio journal ⟨false⟩ rfl w reachable).1 0 ⟨0, [5], 1⟩ [] told
  rw [appended] at there
  cases List.mem_singleton.mp there
  cases applied
  exact ⟨w, reachable, told, P, log, replayed trips⟩

end Runs

end EdgeKV
