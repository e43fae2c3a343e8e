import EdgeKV.Raft.Backtracking
import EdgeKV.Raft.Acks
import EdgeKV.Raft.Clocks

/-!
Replication to one peer. A leader runs one replicator for each peer and each term that
it leads, and a replicator makes its next request only when the last one has been
answered or given up. Under this discipline a rejected request always moves the next
index back, and an accepted one moves it on.
-/
namespace EdgeKV

variable {ID σ : Type}

/-- Where a replicator stands between two requests: it has prepared a call, or waits for
the answer to one. -/
inductive Exchange (ID : Type)
  | prepared (call : Call ID)
  | sent (call : Call ID) (sentAt : Nat)
  deriving DecidableEq, Repr

def Exchange.call : Exchange ID → Call ID
  | prepared call => call
  | sent call _ => call

def Call.peer : Call ID → ID
  | append peer _ => peer
  | needSnapshot peer _ => peer
  | install peer _ => peer

/-- A group with its replicators: one for each leader, peer and term of leadership. -/
structure Replicators (ID σ : Type) where
  group : Group ID σ
  exchange : ID → ID → Nat → Option (Exchange ID) := fun _ _ _ => none

/-- An action of a node, a call that fails, or a crash. -/
inductive Occurrence (ID : Type)
  | act (n : ID) (act : Action ID)
  | giveUp (n peer : ID) (t : Nat)
  | crash (n : ID)
  deriving DecidableEq, Repr

/-- The action reads an answer of `peer` to a request of term `t`. -/
def Action.Answers (peer : ID) (t : Nat) : Action ID → Prop
  | .replication (.appendReply q _ req _) => q = peer ∧ req.term = t
  | .replication (.installReply q _ req _) => q = peer ∧ req.term = t
  | _ => False

/-- Node `n` reads an answer of `peer` to a request of term `t`. -/
def Occurrence.Reads (n peer : ID) (t : Nat) : Occurrence ID → Prop
  | act m a => m = n ∧ a.Answers peer t
  | _ => False

namespace Replicators

variable [DecidableEq ID] (w : Replicators ID σ)

def set (n peer : ID) (t : Nat) (x : Option (Exchange ID)) : ID → ID → Nat → Option (Exchange ID) :=
  fun m q u => if m = n ∧ q = peer ∧ u = t then x else w.exchange m q u

/-- How the replicators of node `n` go on with an action of it that leads to the group
`g'`; `none` where the action is not their turn. -/
def follow (n : ID) (g' : Group ID σ) :
    Action ID → Option (ID → ID → Nat → Option (Exchange ID))
  | .replication (.replicate peer) =>
      let term := (w.group.procs n).raft.term
      if w.exchange n peer term = none then
        some (w.set n peer term ((g'.procs n).calls.head?.map .prepared))
      else none
  | .replication (.readSnapshot peer term) =>
      if w.exchange n peer term = some (.prepared (.needSnapshot peer term)) then
        some (w.set n peer term
          ((Raft.snapshotCall n peer term (w.group.procs n).storage).map .prepared))
      else none
  | .replication (.send call now) =>
      if w.exchange n call.peer call.term = some (.prepared call) then
        some (w.set n call.peer call.term (some (.sent call now)))
      else none
  | .replication (.appendReply peer sentAt req _) =>
      if w.exchange n peer req.term = some (.sent (.append peer req) sentAt) then
        some (w.set n peer req.term none)
      else none
  | .replication (.installReply peer sentAt req _) =>
      if w.exchange n peer req.term = some (.sent (.install peer req) sentAt) then
        some (w.set n peer req.term none)
      else none
  | _ => some w.exchange

variable (cfg : Config ID) (M : StateMachine σ) (T : Transport)

/-- Node `n` takes the action, and its replicators allow it. -/
def Performs (n : ID) (act : Action ID) (w w' : Replicators ID σ) : Prop :=
  Group.Performs cfg M T n act w.group w'.group ∧ w.follow n w'.group act = some w'.exchange

/-- How an event changes the group. A crash ends all replicators of its node. -/
inductive Happens : Occurrence ID → Replicators ID σ → Replicators ID σ → Prop
  | act {w w' : Replicators ID σ} {n : ID} {act : Action ID}
      (performs : Performs cfg M T n act w w') : Happens (.act n act) w w'
  | giveUp {w : Replicators ID σ} {n peer : ID} {t sentAt : Nat} {call : Call ID}
      (waits : w.exchange n peer t = some (.sent call sentAt)) :
      Happens (.giveUp n peer t) w { w with exchange := w.set n peer t none }
  | crash {w : Replicators ID σ} {n : ID} {g' : Group ID σ}
      (crashes : Group.Crashes cfg M T n w.group g') :
      Happens (.crash n) w
        { group := g', exchange := fun m q t => if m = n then none else w.exchange m q t }

def Step (w w' : Replicators ID σ) : Prop := ∃ event, Happens cfg M T event w w'

/-- The states of all runs in which every replicator waits its turn. -/
def Reachable (w : Replicators ID σ) : Prop :=
  Relation.ReflTransGen (Step cfg M T) { group := Group.initial M } w

/-- One action of one node, executed; `none` where it is not enabled or not its turn. -/
def perform (n : ID) (act : Action ID) : Option (Replicators ID σ) :=
  (Group.act cfg M T w.group n act).bind fun group =>
    (w.follow n group act).map fun exchange => { group, exchange }

/-- A list of actions, executed one after the other. -/
def play (w : Replicators ID σ) : List (ID × Action ID) → Option (Replicators ID σ)
  | [] => some w
  | (n, a) :: rest => (w.perform cfg M T n a).bind fun w' => play w' rest

variable {cfg M T}

theorem perform_performs {w w' : Replicators ID σ} {n : ID} {act : Action ID}
    (h : w.perform cfg M T n act = some w') : Performs cfg M T n act w w' := by
  obtain ⟨g', acted, h⟩ := Option.bind_eq_some_iff.mp h
  obtain ⟨exchange, followed, rfl⟩ := Option.map_eq_some_iff.mp h
  exact ⟨Group.act_enabled acted, followed⟩

theorem play_reachable {w w' : Replicators ID σ} {actions : List (ID × Action ID)}
    (reachable : Reachable cfg M T w) (h : play cfg M T w actions = some w') :
    Reachable cfg M T w' := by
  induction actions generalizing w with
  | nil => cases h; exact reachable
  | cons step rest ih =>
      obtain ⟨mid, first, h⟩ := Option.bind_eq_some_iff.mp h
      exact ih (reachable.tail ⟨_, .act (perform_performs first)⟩) h

end Replicators

section Pace

variable [DecidableEq ID] {cfg : Config ID} {n : ID} {r r' : Raft ID} {net net' : List (Msg ID)}
  {x x' : ID → Nat → Option (Exchange ID)}

/-- Every rejection on the wire of a request that is waited for concerns a peer of which
nothing is known to match. -/
def Unmatched (net : List (Msg ID)) (n : ID) (r : Raft ID)
    (x : ID → Nat → Option (Exchange ID)) : Prop :=
  ∀ q sentAt req resp, r.state = .leader → x q r.term = some (.sent (.append q req) sentAt) →
    .appendReply q n sentAt req resp ∈ net → resp.success = false → resp.term ≤ req.term →
      r.matchIndex q = 0

/-- What keeps the replicators of node `n` in step with its records. -/
structure Paced (cfg : Config ID) (net : List (Msg ID)) (n : ID) (r : Raft ID)
    (x : ID → Nat → Option (Exchange ID)) : Prop where
  past : ∀ q t, x q t ≠ none → r.Past t
  termed : ∀ q t y, x q t = some y → y.call.term = t
  positive : r.state = .leader → ∀ q ∈ cfg.others n, 1 ≤ r.nextIndex q
  settled : r.state = .leader → ∀ q, 0 < r.matchIndex q → r.nextIndex q = r.matchIndex q + 1
  built : r.state = .leader → ∀ q y dst req, x q r.term = some y → y.call = .append dst req →
    r.nextIndex q = req.prevLogIndex + 1
  unmatched : Unmatched net n r x

/-- The records of a leader stay as they are, and some replicators may have ended. -/
theorem paced_kept (h : Paced cfg net n r x) (past : ∀ t, r.Past t → r'.Past t)
    (same : r'.state = .leader → r.state = .leader ∧ r'.term = r.term ∧
      r'.nextIndex = r.nextIndex ∧ r'.matchIndex = r.matchIndex)
    (fewer : ∀ q t y, x' q t = some y → x q t = some y) (unmatched : Unmatched net' n r x) :
    Paced cfg net' n r' x' where
  past q t waits := by
    obtain ⟨y, there⟩ := Option.ne_none_iff_exists'.mp waits
    exact past t (h.past q t (by rw [fewer q t y there]; exact Option.some_ne_none y))
  termed q t y there := h.termed q t y (fewer q t y there)
  positive leads q other := by
    obtain ⟨led, -, next, -⟩ := same leads
    rw [next]
    exact h.positive led q other
  settled leads q := by
    obtain ⟨led, -, next, matched⟩ := same leads
    rw [next, matched]
    exact h.settled led q
  built leads q y dst req there call := by
    obtain ⟨led, term, next, -⟩ := same leads
    rw [term] at there
    rw [next]
    exact h.built led q y dst req (fewer _ _ _ there) call
  unmatched q sentAt req resp leads there := by
    obtain ⟨led, term, -, matched⟩ := same leads
    rw [term] at there
    rw [matched]
    exact unmatched q sentAt req resp led (fewer _ _ _ there)

/-- A new leader starts with no replicator of its term and knows nothing to match. -/
theorem paced_elected (h : Paced cfg net n r x) (past : ∀ t, r.Past t → r'.Past t)
    (stood : r.state = .candidate) (term : r'.term = r.term)
    (next : ∀ q ∈ cfg.others n, r'.nextIndex q = r.rlog.lastIndex + 1)
    (matched : ∀ q, r'.matchIndex q = 0) (fewer : ∀ q t y, x' q t = some y → x q t = some y) :
    Paced cfg net' n r' x' := by
  have before {q : ID} {t : Nat} {y : Exchange ID} (there : x' q t = some y) : r.Past t :=
    h.past q t (by rw [fewer q t y there]; exact Option.some_ne_none y)
  have none {q : ID} {y : Exchange ID} : x' q r'.term ≠ some y := fun there => by
    have earlier := (before there).2 stood
    omega
  refine ⟨fun q t waits => ?_, fun q t y there => h.termed q t y (fewer q t y there),
    fun _ q other => ?_, fun _ q pos => ?_, fun _ q y dst req there => absurd there none,
    fun q sentAt req resp _ there => absurd there none⟩
  · obtain ⟨y, there⟩ := Option.ne_none_iff_exists'.mp waits
    exact past t (before there)
  · rw [next q other]
    exact Nat.succ_pos _
  · rw [matched q] at pos
    exact absurd pos (Nat.lt_irrefl 0)

/-- An answer from `peer` changes the records of that peer, whose replicator has nothing
else outstanding. -/
theorem paced_answered (h : Paced cfg net n r x) {peer : ID}
    (role : r'.state = r.state ∧ r'.term = r.term) (leads : r.state = .leader)
    (others : ∀ q, q ≠ peer → r'.nextIndex q = r.nextIndex q ∧ r'.matchIndex q = r.matchIndex q)
    (positive : 1 ≤ r'.nextIndex peer)
    (settled : 0 < r'.matchIndex peer → r'.nextIndex peer = r'.matchIndex peer + 1)
    (fewer : ∀ q t y, x' q t = some y → x q t = some y) (free : x' peer r.term = none)
    (unmatched : Unmatched net' n r x) : Paced cfg net' n r' x' := by
  have apart {q : ID} {y : Exchange ID} (there : x' q r'.term = some y) : q ≠ peer := by
    rintro rfl
    rw [role.2, free] at there
    cases there
  refine ⟨fun q t waits => ?_, fun q t y there => h.termed q t y (fewer q t y there),
    fun _ q other => ?_, fun _ q pos => ?_, fun _ q y dst req there call => ?_,
    fun q sentAt req resp _ there => ?_⟩
  · obtain ⟨y, there⟩ := Option.ne_none_iff_exists'.mp waits
    have past := h.past q t (by rw [fewer q t y there]; exact Option.some_ne_none y)
    exact ⟨role.2 ▸ past.1, fun stands => role.2 ▸ past.2 (role.1 ▸ stands)⟩
  · by_cases own : q = peer
    · exact own ▸ positive
    · rw [(others q own).1]
      exact h.positive leads q other
  · by_cases own : q = peer
    · subst own
      exact settled pos
    · rw [(others q own).2] at pos ⊢
      rw [(others q own).1]
      exact h.settled leads q pos
  · rw [(others q (apart there)).1]
    rw [role.2] at there
    exact h.built leads q y dst req (fewer _ _ _ there) call
  · rw [(others q (apart there)).2]
    rw [role.2] at there
    exact unmatched q sentAt req resp leads (fewer _ _ _ there)

/-- A replicator of node `n` goes on to its next stage. -/
theorem paced_set (h : Paced cfg net n r x) {peer : ID} {t : Nat} {y : Option (Exchange ID)}
    (set : ∀ q u, x' q u = if q = peer ∧ u = t then y else x q u) (past : r.Past t)
    (termed : ∀ z, y = some z → z.call.term = t)
    (built : r.state = .leader → t = r.term → ∀ z dst req, y = some z → z.call = .append dst req →
      r.nextIndex peer = req.prevLogIndex + 1)
    (silent : ∀ call sentAt, y = some (.sent call sentAt) → ∀ req resp,
      .appendReply peer n sentAt req resp ∉ net') (unmatched : Unmatched net' n r x) :
    Paced cfg net' n r x' where
  past q u waits := by
    rw [set] at waits
    split at waits
    next own => exact own.2 ▸ past
    · exact h.past q u waits
  termed q u z there := by
    rw [set] at there
    split at there
    next own => exact (termed z there).trans own.2.symm
    · exact h.termed q u z there
  positive := h.positive
  settled := h.settled
  built leads q z dst req there call := by
    rw [set] at there
    split at there
    next own =>
      rw [own.1]
      exact built leads own.2.symm z dst req there call
    · exact h.built leads q z dst req there call
  unmatched q sentAt req resp leads there reply refused current := by
    rw [set] at there
    split at there
    next own => exact absurd (own.1 ▸ reply) (silent _ _ there req resp)
    · exact unmatched q sentAt req resp leads there reply refused current

/-- A node that does not lead and runs no replicator. -/
theorem paced_idle (idle : r.state ≠ .leader) (none : ∀ q t, x q t = none) : Paced cfg net n r x where
  past q t waits := absurd (none q t) waits
  termed q t _ there := nomatch (none q t).symm.trans there
  positive leads := absurd leads idle
  settled leads := absurd leads idle
  built leads := absurd leads idle
  unmatched _ _ _ _ leads := absurd leads idle

end Pace

section Wire

variable {cfg : Config ID} {n : ID}

/-- After reading its snapshot a replicator is about to install it. -/
theorem prepared_snapshot {peer : ID} {term : Nat} {s : MemStorage ID} {x : Exchange ID}
    (h : (Raft.snapshotCall n peer term s).map .prepared = some x) :
    ∃ req, x = .prepared (.install peer req) ∧ req.term = term := by
  obtain ⟨call, read, rfl⟩ := Option.map_eq_some_iff.mp h
  simp only [Raft.snapshotCall] at read
  obtain ⟨snapMeta, -, rfl⟩ := Option.map_eq_some_iff.mp read
  exact ⟨_, rfl, rfl⟩

variable [DecidableEq ID] {M : StateMachine σ} {T : Transport} {act : Action ID}
  {g g' : Group ID σ}

/-- An answer to `AppendEntries` comes from handling it. -/
theorem effect_appendReply {p p' : Process ID σ} {out : Outcome ID σ} {sent : List (Msg ID)}
    (h : Effect cfg n M T p act out) (next : out.next = some (p', sent)) {src dst : ID}
    {sentAt : Nat} {req : AppendEntriesRequest ID} {resp : AppendEntriesResponse}
    (hm : .appendReply src dst sentAt req resp ∈ sent) :
    src = n ∧ act = .replication (.appendEntries sentAt req) ∧
      ∃ r', (p.raft.handleAppendEntries req).2 = some (r', resp) := by
  have voting {peers : List ID} {reqs : List (RequestVoteRequest ID)} :
      Msg.appendReply src dst sentAt req resp ∉
        reqs.flatMap fun req => peers.map fun peer => Msg.requestVote peer req := by
    intro there
    obtain ⟨_, -, there⟩ := List.mem_flatMap.mp there
    obtain ⟨_, -, eq⟩ := List.mem_map.mp there
    cases eq
  cases h with
  | campaign => cases next; exact absurd hm voting
  | wonPreVote => cases next; exact absurd hm voting
  | wonElection => rw [(tryLock_next next).2.2] at hm; cases hm
  | appendProposals => rw [(tryLock_next next).2.2] at hm; cases hm
  | requestVote => cases next; cases List.mem_singleton.mp hm
  | installSnapshot => cases next; cases List.mem_singleton.mp hm
  | sendTimeoutNow => cases next; cases List.mem_singleton.mp hm
  | @send call now built later =>
      cases next
      split at hm
      · exact nomatch messages_reply hm
      · cases hm
  | appendEntries =>
      obtain ⟨handled, result, eq⟩ := Option.map_eq_some_iff.mp next
      cases eq
      cases List.mem_singleton.mp hm
      exact ⟨rfl, rfl, handled.1, result⟩
  | replicatePanic | takePanic | restorePanic | applyPanic | finishPanic => cases next
  | _ => cases next; cases hm

theorem performs_appendReply (h : Group.Performs cfg M T n act g g') {src dst : ID}
    {sentAt : Nat} {req : AppendEntriesRequest ID} {resp : AppendEntriesResponse}
    (hm : .appendReply src dst sentAt req resp ∈ g'.net) :
    .appendReply src dst sentAt req resp ∈ g.net ∨
      (src = n ∧ act = .replication (.appendEntries sentAt req) ∧ .appendEntries n sentAt req ∈ g.net ∧
        ∃ r', ((g.procs n).raft.handleAppendEntries req).2 = some (r', resp)) := by
  obtain ⟨out, p, sent, s, enabled, stored, next, rfl⟩ := h
  rcases List.mem_append.mp hm with old | new
  · exact Or.inl old
  · obtain ⟨own, rfl, handled⟩ := effect_appendReply (exec_effect enabled.exec) next new
    exact Or.inr ⟨own, rfl, enabled.received _ rfl, handled⟩

theorem performs_replicate {peer : ID}
    (h : Group.Performs cfg M T n (.replication (.replicate peer)) g g') :
    ∃ call, (g.procs n).raft.replicateOnce cfg n peer = some (some call) ∧
      (g'.procs n).raft = (g.procs n).raft ∧ (g'.procs n).calls.head? = some call := by
  obtain ⟨out, p, sent, s, enabled, stored, next, rfl⟩ := h
  simp only [Function.update_self]
  cases exec_effect enabled.exec with
  | replicatePanic => cases next
  | replicate other built =>
      cases next
      exact ⟨_, built, rfl, rfl⟩

theorem performs_answer {peer : ID} {sentAt : Nat} {req : AppendEntriesRequest ID}
    {resp : AppendEntriesResponse}
    (h : Group.Performs cfg M T n (.replication (.appendReply peer sentAt req resp)) g g') :
    (g'.procs n).raft = ((g.procs n).raft.handleAppendReply cfg n peer sentAt req resp).1 := by
  obtain ⟨out, p, sent, s, enabled, stored, next, rfl⟩ := h
  simp only [Function.update_self]
  cases exec_effect enabled.exec with
  | appendReply => cases next; rfl

theorem performs_readSnapshot {peer : ID} {term : Nat}
    (h : Group.Performs cfg M T n (.replication (.readSnapshot peer term)) g g') :
    (g'.procs n).raft = (g.procs n).raft := by
  obtain ⟨out, p, sent, s, enabled, stored, next, rfl⟩ := h
  simp only [Function.update_self]
  cases exec_effect enabled.exec with
  | readSnapshot waiting => cases next; rfl

theorem performs_send {call : Call ID} {now : Nat}
    (h : Group.Performs cfg M T n (.replication (.send call now)) g g') :
    (g'.procs n).raft = (g.procs n).raft ∧ (g.procs n).clock < now := by
  obtain ⟨out, p, sent, s, enabled, stored, next, rfl⟩ := h
  simp only [Function.update_self]
  cases exec_effect enabled.exec with
  | send built later => cases next; exact ⟨rfl, later⟩

end Wire

section Runs

variable [DecidableEq ID] {cfg : Config ID} {n : ID} {M : StateMachine σ} {T : Transport}
  {act : Action ID} {a a' : Abs ID} {w w' : Replicators ID σ}

/-- An action of node `n`, during which its replicators only end. -/
theorem paced_reign {p p' : Process ID σ} {net net' : List (Msg ID)}
    {x x' : ID → Nat → Option (Exchange ID)} (reign : Reign cfg n p act p')
    (h : Paced cfg net n p.raft x) (fewer : ∀ q t y, x' q t = some y → x q t = some y)
    (answered : ∀ peer sentAt req resp, act = .replication (.appendReply peer sentAt req resp) →
      x peer req.term = some (.sent (.append peer req) sentAt) ∧ x' peer req.term = none ∧
        .appendReply peer n sentAt req resp ∈ net)
    (installed : ∀ peer sentAt req resp, act = .replication (.installReply peer sentAt req resp) →
      x' peer req.term = none)
    (unmatched : Unmatched net' n p.raft x) : Paced cfg net' n p'.raft x' := by
  have past : ∀ t, p.raft.Past t → p'.raft.Past t := fun t => reign_past reign
  by_cases leads' : p'.raft.state = .leader
  · rcases reign_indexes reign leads' with kept | ⟨stood, term, next, matched⟩ |
      ⟨peer, sentAt, req, resp, rfl, leads, term, current, raft⟩ |
      ⟨peer, sentAt, req, resp, rfl, leads, term, raft⟩
    · exact paced_kept h past (fun _ => kept) fewer unmatched
    · exact paced_elected h past stood term next matched fewer
    · obtain ⟨waits, free, reply⟩ := answered peer sentAt req resp rfl
      rw [← term] at waits free
      obtain ⟨state, same, -⟩ := appendReplyLocked_keeps raft
      have next := h.built leads peer _ _ _ waits rfl
      refine paced_answered h ⟨state, same⟩ leads (fun q => appendReplyLocked_others raft) ?_ ?_
        fewer free unmatched
      all_goals cases success : resp.success with
        | true =>
            have moved := appendReplyLocked_accepted raft success
            have settled := h.settled leads peer
            omega
        | false =>
            obtain ⟨times, eq⟩ := appendReplyLocked_rejected raft success
            have zero := h.unmatched peer sentAt req resp leads waits reply success (term ▸ current)
            rw [eq]
            simp only [Function.update_self, zero]
            omega
    · obtain ⟨state, same, -⟩ := installReplyLocked_keeps raft
      have next := installReplyLocked_next raft
      exact paced_answered h ⟨state, same⟩ leads (fun q => installReplyLocked_others raft) (by omega)
        (fun _ => next) fewer (term ▸ installed peer sentAt req resp rfl) unmatched
  · exact paced_kept h past (fun leads => absurd leads leads') fewer unmatched

/-- The replicators of all nodes are in step, and rejections on the wire are sound. -/
structure Pacing (cfg : Config ID) (a : Abs ID) (w : Replicators ID σ) : Prop where
  nodes : ∀ m, Paced cfg w.group.net m (w.group.procs m).raft (w.exchange m)
  refused : ∀ src dst sentAt req resp, .appendReply src dst sentAt req resp ∈ w.group.net →
    resp.success = false → resp.term ≤ req.term → Refusal a req resp

/-- A peer that rejects a request has acknowledged nothing that its leader counts on. -/
theorem unmatched_net {g' : Group ID σ} (rel : Rel cfg M a w.group) (h : Pacing cfg a w)
    (performs : Group.Performs cfg M T n act w.group g') (m : ID) :
    Unmatched g'.net m (w.group.procs m).raft (w.exchange m) := by
  intro q sentAt req resp leads waits reply refused current
  rcases performs_appendReply performs reply with old | ⟨rfl, -, asked, r', handled⟩
  · exact (h.nodes m).unmatched q sentAt req resp leads waits old refused current
  · have asked : AppendRel a req := rel.msgs _ asked
    obtain ⟨behind, mismatch⟩ := handleAppendEntries_refused handled refused current
    have next := (h.nodes m).built leads q _ _ _ waits rfl
    have settled := (h.nodes m).settled leads q
    have term : req.term = (w.group.procs m).raft.term := (h.nodes m).termed _ _ _ waits
    by_contra matched
    have pos := Nat.pos_of_ne_zero matched
    have acked := ((rel.nodes m).leads leads).matched q
    rw [← term] at acked
    have same := settled pos
    exact acked_accepts rel.sound (rel.nodes q) asked behind (by omega) (by omega) mismatch

theorem refused_net {g' : Group ID σ} (rel : Rel cfg M a w.group) (grows : Consensus.Grows n a a')
    (h : Pacing cfg a w) (performs : Group.Performs cfg M T n act w.group g') :
    ∀ src dst sentAt req resp, .appendReply src dst sentAt req resp ∈ g'.net →
      resp.success = false → resp.term ≤ req.term → Refusal a' req resp := by
  intro src dst sentAt req resp reply refused current
  refine refusal_grows grows ?_
  rcases performs_appendReply performs reply with old | ⟨rfl, -, asked, r', handled⟩
  · exact h.refused src dst sentAt req resp old refused current
  · obtain ⟨-, mismatch⟩ := handleAppendEntries_refused handled refused current
    exact mismatch_refusal rel.sound (rel.nodes src) (rel.msgs _ asked) mismatch

theorem set_apply (n peer : ID) (t : Nat) (y : Option (Exchange ID)) (q : ID) (u : Nat) :
    w.set n peer t y n q u = if q = peer ∧ u = t then y else w.exchange n q u := by
  simp only [Replicators.set, true_and]

theorem set_none {n peer m q : ID} {t u : Nat} {y : Exchange ID}
    (h : w.set n peer t none m q u = some y) : w.exchange m q u = some y := by
  simp only [Replicators.set] at h
  split at h
  · cases h
  · exact h

theorem set_freed (n peer : ID) (t : Nat) : w.set n peer t none n peer t = none := by
  rw [set_apply, if_pos ⟨rfl, rfl⟩]

/-- An action of one node leaves the replicators of the others alone. -/
theorem follow_other {g' : Group ID σ} {x' : ID → ID → Nat → Option (Exchange ID)} {m : ID}
    (h : w.follow n g' act = some x') (other : m ≠ n) : x' m = w.exchange m := by
  have kept {peer : ID} {t : Nat} {y : Option (Exchange ID)} :
      w.set n peer t y m = w.exchange m := by
    funext q u
    exact if_neg fun own => other own.1
  simp only [Replicators.follow] at h
  split at h
  all_goals first
    | (split at h
       · cases h; exact kept
       · cases h)
    | (cases h; rfl)

theorem paced_act (rel : Rel cfg M a w.group) (timed : Timed w.group) (h : Pacing cfg a w)
    (performs : w.Performs cfg M T n act w') :
    Paced cfg w'.group.net n (w'.group.procs n).raft (w'.exchange n) := by
  obtain ⟨g', x'⟩ := w'
  obtain ⟨performs, follows⟩ := performs
  have unmatched := unmatched_net rel h performs n
  have reign := performs_reign performs
  have own := h.nodes n
  simp only [Replicators.follow] at follows
  split at follows
  next peer =>
    obtain ⟨call, built, raft, head⟩ := performs_replicate performs
    obtain ⟨leads, made⟩ := replicateOnce_cases built
    split at follows
    · cases follows
      rw [raft, head]
      refine paced_set own (set_apply n peer _ _) (past_leads leads) ?_ ?_ ?_ unmatched
      · rintro z ⟨⟩
        rcases made with rfl | ⟨req, rfl, term, -⟩
        · rfl
        · exact term
      · rintro - - z dst req ⟨⟩ append
        rcases made with rfl | ⟨req, rfl, -, next⟩
        · cases append
        · cases append
          exact next
      · rintro call sentAt ⟨⟩
    · cases follows
  next peer term =>
    split at follows
    next waits =>
      cases follows
      rw [performs_readSnapshot performs]
      refine paced_set own (set_apply n peer _ _) (own.past peer term ?_) ?_ ?_ ?_ unmatched
      · rw [waits]
        exact Option.some_ne_none _
      · intro z read
        obtain ⟨req, rfl, rfl⟩ := prepared_snapshot read
        rfl
      · intro _ _ z dst req read append
        obtain ⟨req, rfl, rfl⟩ := prepared_snapshot read
        cases append
      · intro call sentAt read
        obtain ⟨req, impossible, -⟩ := prepared_snapshot read
        cases impossible
    · cases follows
  next call now =>
    split at follows
    next waits =>
      cases follows
      obtain ⟨raft, later⟩ := performs_send performs
      rw [raft]
      refine paced_set own (set_apply n call.peer _ _) (own.past call.peer call.term ?_) ?_ ?_ ?_
        unmatched
      · rw [waits]
        exact Option.some_ne_none _
      · rintro z ⟨⟩
        rfl
      · rintro leads term z dst req ⟨⟩ append
        exact own.built leads call.peer (.prepared call) dst req (term ▸ waits) append
      · rintro _ _ ⟨⟩ req resp reply
        rcases performs_appendReply performs reply with old | ⟨-, impossible, -⟩
        · have stamped := timed.net _ old n now rfl
          omega
        · cases impossible
    · cases follows
  next peer sentAt req resp =>
    split at follows
    next waits =>
      cases follows
      refine paced_reign reign own (fun q t y => set_none) ?_ (fun _ _ _ _ eq => nomatch eq) unmatched
      rintro _ _ _ _ ⟨⟩
      exact ⟨waits, set_freed n peer req.term, Group.performs_received performs rfl⟩
    · cases follows
  next peer sentAt req resp =>
    split at follows
    next waits =>
      cases follows
      refine paced_reign reign own (fun q t y => set_none) (fun _ _ _ _ eq => nomatch eq) ?_ unmatched
      rintro _ _ _ _ ⟨⟩
      exact set_freed n peer req.term
    · cases follows
  next notReplicate notRead notSend notAppend notInstall =>
    cases follows
    refine paced_reign reign own (fun q t y => id) ?_ ?_ unmatched
    · intro peer sentAt req resp eq
      exact absurd eq (notAppend peer sentAt req resp)
    · intro peer sentAt req resp eq
      exact absurd eq (notInstall peer sentAt req resp)

theorem paced_rest {m : ID} {net' : List (Msg ID)} {p' : Process ID σ}
    {x' : ID → Nat → Option (Exchange ID)} (h : Pacing cfg a w) (same : p' = w.group.procs m)
    (fewer : ∀ q t y, x' q t = some y → w.exchange m q t = some y)
    (unmatched : Unmatched net' m (w.group.procs m).raft (w.exchange m)) :
    Paced cfg net' m p'.raft x' := by
  subst same
  exact paced_kept (h.nodes m) (fun t past => past) (fun leads => ⟨leads, rfl, rfl, rfl⟩) fewer
    unmatched

theorem pacing_step (honours : T.HonoursContext) (rel : Rel cfg M a w.group)
    (timed : Timed w.group) (h : Pacing cfg a w) (step : Replicators.Step cfg M T w w') :
    ∃ a', Rel cfg M a' w'.group ∧ Timed w'.group ∧ Pacing cfg a' w' := by
  obtain ⟨event, happens⟩ := step
  cases happens with
  | @act _ _ n act performs =>
      have step := Group.performs_step performs.1
      obtain ⟨a', advance, rel'⟩ := rel_step honours rel step
      refine ⟨a', rel', timed_step step timed, ?_, refused_net rel advance.grows h performs.1⟩
      intro m
      by_cases own : m = n
      · subst own
        exact paced_act rel timed h performs
      · have unmatched := unmatched_net rel h performs.1 m
        rw [follow_other performs.2 own]
        exact paced_rest h (Group.stepOf_other step own) (fun _ _ _ => id) unmatched
  | giveUp waits =>
      exact ⟨a, rel, timed, fun m => paced_rest h rfl (fun q t y => set_none)
        (h.nodes m).unmatched, h.refused⟩
  | @crash _ n g' crashes =>
      have step := Group.crashes_step crashes
      obtain ⟨a', advance, rel'⟩ := rel_step honours rel step
      have idle := (crashes_idle crashes).1
      obtain ⟨ops, s, p, -, -, -, rfl⟩ := crashes
      refine ⟨a', rel', timed_step step timed, ?_, ?_⟩
      · intro m
        by_cases own : m = n
        · subst own
          exact paced_idle (fun leads => nomatch idle.symm.trans leads) fun q t => if_pos rfl
        · refine paced_rest h (Group.stepOf_other step own) ?_ (h.nodes m).unmatched
          intro q t y there
          exact (if_neg own).symm.trans there
      · intro src dst sentAt req resp reply refused current
        exact refusal_grows advance.grows (h.refused src dst sentAt req resp reply refused current)

theorem reachable_pacing (honours : T.HonoursContext) (reachable : w.Reachable cfg M T) :
    ∃ a, Rel cfg M a w.group ∧ Timed w.group ∧ Pacing cfg a w := by
  induction reachable with
  | refl =>
      refine ⟨_, rel_initial M, timed_initial M, fun m => ?_, fun _ _ _ _ _ reply => nomatch reply⟩
      exact paced_idle (fun leads => nomatch leads) fun q t => rfl
  | tail _ step ih =>
      obtain ⟨a, rel, timed, pacing⟩ := ih
      exact pacing_step honours rel timed pacing step

/-- Node `n` leads term `t` and reads the answer of `peer` to a request of that term. -/
structure Replicators.Answered (cfg : Config ID) (M : StateMachine σ) (T : Transport) (n peer : ID)
    (req : AppendEntriesRequest ID) (resp : AppendEntriesResponse) (w w' : Replicators ID σ) :
    Prop where
  performs : ∃ sentAt, w.Performs cfg M T n (.replication (.appendReply peer sentAt req resp)) w'
  leads : (w.group.procs n).raft.state = .leader
  term : (w.group.procs n).raft.term = req.term
  current : resp.term ≤ req.term

/-- A run in which `peer` rejects `k` requests of node `n`, which leads term `t`
throughout, and accepts none, nor a snapshot. -/
inductive Replicators.Backtracks (cfg : Config ID) (M : StateMachine σ) (T : Transport)
    (n peer : ID) (t : Nat) : Nat → Replicators ID σ → Replicators ID σ → Prop
  | refl {w : Replicators ID σ} (leads : (w.group.procs n).raft.state = .leader)
      (term : (w.group.procs n).raft.term = t) : Backtracks cfg M T n peer t 0 w w
  | other {k : Nat} {w w₁ w₂ : Replicators ID σ} {event : Occurrence ID}
      (run : Backtracks cfg M T n peer t k w w₁) (happens : Happens cfg M T event w₁ w₂)
      (unread : ¬ event.Reads n peer t) (leads : (w₂.group.procs n).raft.state = .leader)
      (term : (w₂.group.procs n).raft.term = t) : Backtracks cfg M T n peer t k w w₂
  | rejected {k : Nat} {w w₁ w₂ : Replicators ID σ} {req : AppendEntriesRequest ID}
      {resp : AppendEntriesResponse} (run : Backtracks cfg M T n peer t k w w₁)
      (answered : Answered cfg M T n peer req resp w₁ w₂) (refused : resp.success = false) :
      Backtracks cfg M T n peer t (k + 1) w w₂

variable {peer : ID} {t k : Nat} {req : AppendEntriesRequest ID} {resp : AppendEntriesResponse}
  {event : Occurrence ID}

theorem answered_raft (h : Replicators.Answered cfg M T n peer req resp w w') :
    ∃ sentAt, w.exchange n peer (w.group.procs n).raft.term = some (.sent (.append peer req) sentAt) ∧
      .appendReply peer n sentAt req resp ∈ w.group.net ∧
      (w'.group.procs n).raft = ((w.group.procs n).raft.recordAckLocked peer sentAt).appendReplyLocked
        cfg n peer req resp := by
  obtain ⟨⟨sentAt, performs, follows⟩, leads, term, current⟩ := h
  refine ⟨sentAt, ?_, Group.performs_received performs rfl, ?_⟩
  · simp only [Replicators.follow] at follows
    split at follows
    next waits => rw [term]; exact waits
    · cases follows
  · rw [← handleAppendReply_current cfg n peer sentAt leads term (term ▸ current)]
    exact performs_answer performs

/-- A rejection moves the next index back from where the request was built. -/
theorem answered_rejected (rel : Rel cfg M a w.group) (h : Pacing cfg a w)
    (answered : Replicators.Answered cfg M T n peer req resp w w') (refused : resp.success = false) :
    (w.group.procs n).raft.nextIndex peer = req.prevLogIndex + 1 ∧
      1 ≤ (w'.group.procs n).raft.nextIndex peer ∧
      (w'.group.procs n).raft.nextIndex peer < (w.group.procs n).raft.nextIndex peer ∧
      (w'.group.procs n).raft.nextIndex peer ≤ (w'.group.procs n).raft.rlog.lastIndex + 1 := by
  obtain ⟨sentAt, waits, reply, raft⟩ := answered_raft answered
  have built := (h.nodes n).built answered.leads peer _ peer req waits rfl
  have refusal := h.refused peer n sentAt req resp reply refused answered.current
  obtain ⟨-, -, -, -, positive, back, inside⟩ := node_refused rel.sound (rel.nodes n) answered.leads
    answered.term refusal refused raft
  exact ⟨built, positive, by omega, inside⟩

/-- An accepted request that carried entries moves the next index on. -/
theorem answered_accepted (h : Pacing cfg a w)
    (answered : Replicators.Answered cfg M T n peer req resp w w') (success : resp.success = true)
    (carried : req.entries ≠ []) :
    (w.group.procs n).raft.nextIndex peer < (w'.group.procs n).raft.nextIndex peer := by
  obtain ⟨sentAt, waits, -, raft⟩ := answered_raft answered
  have built := (h.nodes n).built answered.leads peer _ peer req waits rfl
  have settled := (h.nodes n).settled answered.leads peer
  have some := List.length_pos_iff.mpr carried
  have moved := appendReplyLocked_accepted raft success
  omega

/-- While a node leads, only answers of a peer move its next index. -/
theorem happens_next (happens : Replicators.Happens cfg M T event w w')
    (unread : ¬ event.Reads n peer (w.group.procs n).raft.term)
    (leads : (w.group.procs n).raft.state = .leader)
    (leads' : (w'.group.procs n).raft.state = .leader) :
    (w'.group.procs n).raft.nextIndex peer = (w.group.procs n).raft.nextIndex peer := by
  cases happens with
  | giveUp waits => rfl
  | @crash _ m g' crashes =>
      have step := Group.crashes_step crashes
      by_cases own : n = m
      · subst own
        exact nomatch (crashes_idle crashes).1.symm.trans leads'
      · rw [Group.stepOf_other step own]
  | @act _ _ m act performs =>
      by_cases own : n = m
      · subst own
        rcases reign_indexes (performs_reign performs.1) leads' with ⟨-, -, next, -⟩ | ⟨stood, -⟩ |
          ⟨q, sentAt, req, resp, rfl, -, term, -, raft⟩ | ⟨q, sentAt, req, resp, rfl, -, term, raft⟩
        · rw [next]
        · exact nomatch leads.symm.trans stood
        · exact (appendReplyLocked_others raft fun same => unread ⟨rfl, same.symm, term.symm⟩).1
        · exact (installReplyLocked_others raft fun same => unread ⟨rfl, same.symm, term.symm⟩).1
      · rw [Group.stepOf_other (Group.performs_step performs.1) own]

/-- Every rejection takes one from the next index. -/
theorem backtracks_bound (honours : T.HonoursContext) (reachable : w.Reachable cfg M T)
    (run : Replicators.Backtracks cfg M T n peer t k w w') :
    w'.Reachable cfg M T ∧ (w'.group.procs n).raft.state = .leader ∧
      (w'.group.procs n).raft.term = t ∧
      (w'.group.procs n).raft.nextIndex peer + k ≤ (w.group.procs n).raft.nextIndex peer := by
  induction run with
  | refl leads term => exact ⟨reachable, leads, term, Nat.le_refl _⟩
  | other run happens unread leads' term' ih =>
      obtain ⟨reached, leads, term, bound⟩ := ih reachable
      refine ⟨reached.tail ⟨_, happens⟩, leads', term', ?_⟩
      rw [happens_next happens (term ▸ unread) leads leads']
      exact bound
  | rejected run answered refused ih =>
      obtain ⟨reached, leads, term, bound⟩ := ih reachable
      obtain ⟨a, rel, -, pacing⟩ := reachable_pacing honours reached
      obtain ⟨-, -, back, -⟩ := answered_rejected rel pacing answered refused
      obtain ⟨sentAt, -, -, raft⟩ := answered_raft answered
      obtain ⟨state, same, -⟩ := appendReplyLocked_keeps raft
      obtain ⟨sentAt, performs⟩ := answered.performs
      refine ⟨reached.tail ⟨_, .act performs⟩, state.trans leads, same.trans term, ?_⟩
      omega

end Runs

/-- Backtracking makes progress: the next index of a peer lies behind what matches and
within the log, a rejection moves it back, so that the requests to a follower end in an
accepted one or a snapshot, and an accepted request that carried entries moves it on. -/
theorem backtracking_progress [DecidableEq ID] (cfg : Config ID) (M : StateMachine σ)
    (T : Transport) (honours : T.HonoursContext) (w : Replicators ID σ)
    (reachable : w.Reachable cfg M T) (n peer : ID)
    (leads : (w.group.procs n).raft.state = .leader) :
    (∀ req resp w', Replicators.Answered cfg M T n peer req resp w w' → resp.success = false →
      (w.group.procs n).raft.nextIndex peer = req.prevLogIndex + 1 ∧
        1 ≤ (w'.group.procs n).raft.nextIndex peer ∧
        (w'.group.procs n).raft.nextIndex peer < (w.group.procs n).raft.nextIndex peer ∧
        (w'.group.procs n).raft.nextIndex peer ≤ (w'.group.procs n).raft.rlog.lastIndex + 1) ∧
    (peer ∈ cfg.others n →
      (w.group.procs n).raft.matchIndex peer < (w.group.procs n).raft.nextIndex peer ∧
      (w.group.procs n).raft.nextIndex peer ≤ (w.group.procs n).raft.rlog.lastIndex + 1) ∧
    (peer ∈ cfg.others n → ∀ t k w', Replicators.Backtracks cfg M T n peer t k w w' →
      1 ≤ (w'.group.procs n).raft.nextIndex peer ∧
      (w'.group.procs n).raft.nextIndex peer + k ≤ (w.group.procs n).raft.nextIndex peer) ∧
    (peer ∈ cfg.others n → (w.group.procs n).raft.stopped = false →
      (w.group.procs peer).raft.term ≤ (w.group.procs n).raft.term → ∀ sentAt, ∃ settled,
        Raft.catchUp cfg n peer sentAt ((w.group.procs n).raft.nextIndex peer)
          (w.group.procs n).raft (w.group.procs peer).raft = some settled) ∧
    (∀ req resp w', Replicators.Answered cfg M T n peer req resp w w' → resp.success = true →
      req.entries ≠ [] →
        (w.group.procs n).raft.nextIndex peer < (w'.group.procs n).raft.nextIndex peer) := by
  obtain ⟨a, rel, -, pacing⟩ := reachable_pacing honours reachable
  refine ⟨?_, ?_, ?_, ?_, ?_⟩
  · intro req resp w' answered refused
    exact answered_rejected rel pacing answered refused
  · intro other
    have positive := (pacing.nodes n).positive leads peer other
    have settled := (pacing.nodes n).settled leads peer
    have next := ((rel.nodes n).leads leads).next peer
    rw [holds_lastIndex (rel.nodes n).log]
    omega
  · intro other t k w' run
    obtain ⟨reached, leads', -, bound⟩ := backtracks_bound honours reachable run
    obtain ⟨a', -, -, pacing'⟩ := reachable_pacing honours reached
    exact ⟨(pacing'.nodes n).positive leads' peer other, bound⟩
  · intro other running behind sentAt
    refine catchUp_settles rel.sound (rel.nodes n) (rel.nodes peer) ?_ ⟨leads, rfl, running⟩ behind
      ((pacing.nodes n).positive leads peer other) (Nat.le_refl _)
    rintro rfl
    exact of_decide_eq_true (List.mem_filter.mp other).2 rfl
  · intro req resp w' answered success carried
    exact answered_accepted pacing answered success carried

section Samples

/-- Node 1, which leads term 2, asks node 2 to follow on from index 1. -/
def secondRequest : AppendEntriesRequest Nat where
  term := 2
  leaderId := 1
  prevLogIndex := 1
  prevLogTerm := 1
  entries := [{ index := 2, term := 2, type := .noop, data := [] }]
  leaderCommit := 1

/-- The log of node 2 is empty, so that it rejects. -/
def refusedRun : List (Nat × Action Nat) :=
  committedRun ++ successionRun ++
    [(1, .replication (.replicate 2)), (1, .replication (.send (.append 2 secondRequest) 10)),
      (2, .replication (.appendEntries 10 secondRequest))]

end Samples

theorem backtracking_progress_refused :
    ∃ w w' : Replicators Nat Unit, w.Reachable trio idleMachine ⟨false⟩ ∧
      Replicators.Answered trio idleMachine ⟨false⟩ 1 2 secondRequest
        { term := 2, conflictIndex := 1 } w w' ∧
      (w.group.procs 1).raft.nextIndex 2 = 2 ∧ (w'.group.procs 1).raft.nextIndex 2 = 1 ∧
      Raft.catchUp trio 1 2 10 2 (w.group.procs 1).raft (w.group.procs 2).raft = some .accepted ∧
      (w'.group.procs 1).raft.nextIndex 2 < (w.group.procs 1).raft.nextIndex 2 := by
  obtain ⟨w, played, leads, term, next, w', performed, next', caughtUp⟩ : ∃ w : Replicators Nat Unit,
      Replicators.play trio idleMachine ⟨false⟩ { group := Group.initial idleMachine } refusedRun =
        some w ∧ (w.group.procs 1).raft.state = .leader ∧ (w.group.procs 1).raft.term = 2 ∧
      (w.group.procs 1).raft.nextIndex 2 = 2 ∧ ∃ w' : Replicators Nat Unit,
        w.perform trio idleMachine ⟨false⟩ 1 (.replication (.appendReply 2 10 secondRequest
          { term := 2, conflictIndex := 1 })) = some w' ∧
        (w'.group.procs 1).raft.nextIndex 2 = 1 ∧
        Raft.catchUp trio 1 2 10 2 (w.group.procs 1).raft (w.group.procs 2).raft =
          some .accepted :=
    ⟨_, rfl, rfl, rfl, rfl, _, rfl, rfl, rfl⟩
  have reachable := Replicators.play_reachable .refl played
  have answered : Replicators.Answered trio idleMachine ⟨false⟩ 1 2 secondRequest
      { term := 2, conflictIndex := 1 } w w' :=
    ⟨⟨10, Replicators.perform_performs performed⟩, leads, term, Nat.le_refl _⟩
  obtain ⟨rejected, -⟩ := backtracking_progress trio idleMachine ⟨false⟩ rfl w reachable 1 2 leads
  exact ⟨w, w', reachable, answered, next, next', caughtUp,
    (rejected secondRequest _ w' answered rfl).2.2.1⟩

end EdgeKV
