import EdgeKV.Raft.Safety

/-!
What an acknowledgement is worth. A leader counts an entry as stored on a peer because
of a match index or an answer; as long as the peer is in the leader's term it has the
entry on disk, or has taken a snapshot over it, whatever messages still arrive.
-/
namespace EdgeKV

open Consensus (Later)

variable {ID σ : Type}

/-- Index `i` is one that `p` has acknowledged to the leader `l` of term `t`. -/
def Group.Acknowledged (g : Group ID σ) (l p : ID) (t i : Nat) : Prop :=
  i ≤ (g.procs l).raft.matchIndex p ∨
    ∃ dst sentAt req resp, .appendReply p dst sentAt req resp ∈ g.net ∧ resp.success = true ∧
      req.term = t ∧ i ≤ req.prevLogIndex + req.entries.length

/-- The action handles a request of the leader of term `t`. -/
def Action.FromLeader (t : Nat) : Action ID → Prop
  | .replication (.appendEntries _ req) => req.term = t
  | .replication (.installSnapshot _ req) => req.term = t
  | _ => False

section Ledger

variable {cfg : Config ID} {a a' : Abs ID} {M : StateMachine σ} {n : ID} {p p' : Process ID σ}
  {t i : Nat} {e : Entry}

/-- What a node has acknowledged in its term is in its log. -/
theorem acked_entry (sound : Sound cfg a) (current : a.term n = t) (acked : i < a.acked n t) :
    ∃ e, (a.ledger t)[i]? = some e ∧ (a.log n)[i]? = some e := by
  have inside : i < (a.ledger t).length := acked.trans_le (sound.inv.acked_le n t)
  refine ⟨_, List.getElem?_eq_getElem inside, getElem?_of_pre (sound.inv.current current) ?_⟩
  rw [List.getElem?_take_of_lt acked, List.getElem?_eq_getElem inside]

/-- An entry of a node's log is on its disk, or inside its snapshot. -/
theorem durable_entry {s : MemStorage ID} (h : Durable M a n s)
    (there : (a.log n)[i - 1]? = some e) : i ≤ s.snapIndex ∨ e ∈ s.entries := by
  rcases Nat.lt_or_ge s.snapIndex i with above | inside
  · exact Or.inr (entry_held h.log there (Nat.le_sub_one_of_lt above))
  · exact Or.inl inside

theorem entry_durable (sound : Sound cfg a) {s : MemStorage ID} (h : Durable M a n s)
    (he : e ∈ s.entries) : 0 < e.index ∧ (a.log n)[e.index - 1]? = some e := by
  obtain ⟨above, there⟩ := held_entry h.log (log_indexed sound n) he
  exact ⟨Nat.zero_lt_of_lt above, there⟩

/-- An acknowledged entry survives for as long as the node stays in the term. -/
theorem acked_kept (sound : Sound cfg a) (sound' : Sound cfg a') (later : Later a a')
    (h : Durable M a n p.storage) (h' : Durable M a' n p'.storage) (current : a.term n = t)
    (current' : a'.term n = t) (acked : e.index ≤ a.acked n t) (he : e ∈ p.storage.entries) :
    e.index ≤ p'.storage.snapIndex ∨ e ∈ p'.storage.entries := by
  obtain ⟨pos, there⟩ := entry_durable sound h he
  obtain ⟨x, led, own⟩ := acked_entry sound current (i := e.index - 1) (by omega)
  obtain rfl := Option.some.inj (own.symm.trans there)
  have acked' := acked.trans (Consensus.later_acked later n t)
  obtain ⟨y, led', own'⟩ := acked_entry sound' current' (i := x.index - 1) (by omega)
  obtain rfl := Option.some.inj
    (led'.symm.trans (getElem?_of_pre (Consensus.later_ledger later t) led))
  exact durable_entry h' own'

end Ledger

section Handling

variable [DecidableEq ID] {r : Raft ID} {cfg : Config ID} {n : ID} {M : StateMachine σ}
  {T : Transport} {g g' : Group ID σ} {act : Action ID} {t : Nat}

theorem followLocked_term (leader : ID) : (r.followLocked r.term leader).1.term = r.term := by
  simp only [Raft.followLocked]
  split
  · rw [Raft.becomeFollowerLocked_eq]
    exact Nat.max_self _
  · rfl

/-- A request of term `t` moves a node of that term nowhere, and touches nothing on a
node of a later term. -/
theorem fromLeader_term (h : Group.Performs cfg M T n act g g') (from_ : act.FromLeader t)
    (past : t ≤ (g.procs n).raft.term) :
    (g'.procs n).raft.term = (g.procs n).raft.term ∧
      (t < (g.procs n).raft.term → (g'.procs n).storage = (g.procs n).storage) := by
  obtain ⟨out, p, sent, s, enabled, stored, next, rfl⟩ := h
  simp only [Function.update_self]
  cases exec_effect enabled.exec with
  | @appendEntries sentAt req =>
      cases from_
      obtain ⟨⟨r', resp⟩, handled, eq⟩ := Option.map_eq_some_iff.mp next
      cases eq
      simp only [Raft.handleAppendEntries] at handled stored
      split at handled
      next stale =>
        rw [if_pos stale] at stored
        cases handled
        cases stored
        exact ⟨rfl, fun _ => rfl⟩
      next current =>
        have same := Nat.le_antisymm past (Nat.le_of_not_lt current)
        have kept := (appendEntriesLocked_role _ handled).2
        rw [same] at kept
        exact ⟨kept.trans (followLocked_term _), fun later => absurd later current⟩
  | @installSnapshot sentAt req =>
      cases from_
      cases next
      simp only [Raft.handleInstallSnapshot, Process.lock] at stored ⊢
      split at stored
      next stale =>
        cases stored
        rw [if_pos stale]
        exact ⟨rfl, fun _ => rfl⟩
      next current =>
        have same := Nat.le_antisymm past (Nat.le_of_not_lt current)
        rw [if_neg current]
        refine ⟨(installSnapshotLocked_role _ _).2.trans ?_, fun later => absurd later current⟩
        rw [same]
        exact followLocked_term _
  | _ => exact from_.elim

end Handling

section Runs

variable [DecidableEq ID]

/-- An acknowledged position in any state in which `p` is in the term. -/
theorem acked_found {cfg : Config ID} {M : StateMachine σ} {a : Abs ID} {g : Group ID σ} {p : ID}
    {t i : Nat} (rel : Rel cfg M a g) (term : a.term p = t) (acked : i ≤ a.acked p t) :
    i ≤ (g.procs p).storage.snapIndex ∨
      ∃ e ∈ (g.procs p).storage.entries, e.index = i ∧ (a.ledger t)[i - 1]? = some e := by
  rcases Nat.eq_zero_or_pos i with rfl | pos
  · exact Or.inl (Nat.zero_le _)
  · obtain ⟨e, there, own⟩ := acked_entry rel.sound term (i := i - 1) (by omega)
    refine (durable_entry (rel.nodes p).durable own).imp_right fun stored => ⟨e, stored, ?_, there⟩
    rw [log_indexed rel.sound p _ e own, Nat.sub_add_cancel pos]

/-- In term `t`, what `p` has acknowledged to the leader of the term is on the disk of
`p` as the leader has it, or inside the snapshot of `p`. It stays there while `p` is in
the term, and no request of the term takes it away, however late it is handled. -/
theorem acknowledged_stored (cfg : Config ID) (M : StateMachine σ) (T : Transport)
    (honours : T.HonoursContext) (g : Group ID σ) (reachable : Group.Reachable cfg M T g)
    (l p : ID) (t i : Nat) (leads : (g.procs l).raft.state = .leader)
    (led : (g.procs l).raft.term = t) (follows : (g.procs p).raft.term = t)
    (acknowledged : g.Acknowledged l p t i) :
    (i ≤ (g.procs p).storage.snapIndex ∨ ∃ e ∈ (g.procs p).storage.entries, e.index = i ∧
      (g.procs l).Retains M e ∧ ∀ e' ∈ (g.procs l).raft.rlog.entries, e'.index = i → e' = e) ∧
    (∀ g', Group.Steps cfg M T g g' → (g'.procs p).raft.term = t →
      (i ≤ (g'.procs p).storage.snapIndex ∨ ∃ e ∈ (g'.procs p).storage.entries, e.index = i) ∧
      ∀ e ∈ (g.procs p).storage.entries, e.index = i →
        i ≤ (g'.procs p).storage.snapIndex ∨ e ∈ (g'.procs p).storage.entries) ∧
    ∀ g' g'' act, Group.Steps cfg M T g g' → act.FromLeader t →
      Group.Performs cfg M T p act g' g'' → ∀ e ∈ (g'.procs p).storage.entries, e.index = i →
        i ≤ (g''.procs p).storage.snapIndex ∨ e ∈ (g''.procs p).storage.entries := by
  obtain ⟨a, rel⟩ := reachable_rel honours reachable
  have leader := (rel.nodes l).leads leads
  have termL : a.term l = t := (rel.nodes l).term.symm.trans led
  have termP : a.term p = t := (rel.nodes p).term.symm.trans follows
  have acked : i ≤ a.acked p t := by
    rcases acknowledged with matched | ⟨dst, sentAt, req, resp, sent, success, rfl, le⟩
    · exact led ▸ matched.trans (leader.matched p)
    · exact le.trans (rel.msgs _ sent success)
  have logL : a.log l = a.ledger t :=
    rel.sound.inv.leader_log (led ▸ leader.leader) termL
  refine ⟨?_, fun g' steps term => ?_, fun g' g'' act steps from_ performs e he index => ?_⟩
  · refine (acked_found rel termP acked).imp_right fun ⟨e, stored, index, there⟩ => ?_
    have pos := (entry_durable rel.sound (rel.nodes p).durable stored).1
    rw [← logL, ← index] at there
    refine ⟨e, stored, index, node_retains (rel.nodes l) pos there, fun e' he' same => ?_⟩
    obtain ⟨-, there'⟩ := held_entry (rel.nodes l).log (log_indexed rel.sound l) he'
    rw [same, ← index] at there'
    exact Option.some.inj (there'.symm.trans there)
  · obtain ⟨a', later, rel'⟩ := rel_steps honours rel steps
    have term' : a'.term p = t := (rel'.nodes p).term.symm.trans term
    have acked' := acked.trans (Consensus.later_acked later p t)
    refine ⟨(acked_found rel' term' acked').imp_right
      fun ⟨e, stored, index, _⟩ => ⟨e, stored, index⟩, fun e he index => ?_⟩
    subst index
    exact acked_kept rel.sound rel'.sound later (rel.nodes p).durable (rel'.nodes p).durable termP
      term' acked he
  · obtain ⟨a', later, rel'⟩ := rel_steps honours rel steps
    obtain ⟨a'', advance, rel''⟩ := rel_step honours rel' (Group.performs_step performs)
    have past : t ≤ (g'.procs p).raft.term := by
      rw [(rel'.nodes p).term, ← termP]
      exact Consensus.later_term later p
    obtain ⟨term, stale⟩ := fromLeader_term performs from_ past
    rcases Nat.eq_or_lt_of_le past with current | moved
    · have term' : a'.term p = t := (rel'.nodes p).term.symm.trans current.symm
      have term'' : a''.term p = t := (rel''.nodes p).term.symm.trans (term.trans current.symm)
      subst index
      exact acked_kept rel'.sound rel''.sound (.single ⟨p, advance.grows⟩) (rel'.nodes p).durable
        (rel''.nodes p).durable term' term'' (acked.trans (Consensus.later_acked later p t)) he
    · rw [stale moved]
      exact Or.inr he

theorem acknowledged_stored_noop :
    ∃ g : Group Nat Unit, Group.Reachable trio idleMachine ⟨false⟩ g ∧ g.Acknowledged 0 1 1 1 ∧
      ∃ e ∈ (g.procs 1).storage.entries, e.index = 1 ∧ (g.procs 0).Retains idleMachine e := by
  obtain ⟨g, hg, leads, led, follows, matched, kept⟩ : ∃ g, Group.play trio idleMachine ⟨false⟩
      (Group.initial idleMachine) committedRun = some g ∧ (g.procs 0).raft.state = .leader ∧
      (g.procs 0).raft.term = 1 ∧ (g.procs 1).raft.term = 1 ∧
      1 ≤ (g.procs 0).raft.matchIndex 1 ∧ (g.procs 1).storage.snapIndex = 0 :=
    ⟨_, rfl, rfl, rfl, rfl, by decide, rfl⟩
  have reachable : Group.Reachable trio idleMachine ⟨false⟩ g := Group.play_steps hg
  have stored := (acknowledged_stored trio idleMachine ⟨false⟩ rfl g reachable 0 1 1 1 leads led
    follows (Or.inl matched)).1
  rw [kept] at stored
  obtain ⟨e, there, index, retained, -⟩ := stored.resolve_left (Nat.not_succ_le_zero 0)
  exact ⟨g, reachable, Or.inl matched, e, there, index, retained⟩

/-- On a transport that sends what was cancelled, a request under term 1 takes from node 4, which is
still in that term, the last entry that it has acknowledged to the leader of the term. -/
theorem late_snapshot_drops :
    ∃ (g g' g'' : Group Nat Unit) (e : Entry), Group.Reachable hasty idleMachine ⟨true⟩ g ∧
      (g.procs 0).raft.state = .leader ∧ (g.procs 0).raft.term = 1 ∧ (g.procs 4).raft.term = 1 ∧
      g.Acknowledged 0 4 1 3 ∧ Group.Steps hasty idleMachine ⟨true⟩ g g' ∧
      Group.Performs hasty idleMachine ⟨true⟩ 4 (.replication (.installSnapshot 5 lateRequest))
        g' g'' ∧
      Action.FromLeader 1 (.replication (.installSnapshot 5 lateRequest) : Action Nat) ∧
      e ∈ (g'.procs 4).storage.entries ∧ e.index = 3 ∧
      (g''.procs 4).raft.term = 1 ∧ (g''.procs 4).storage.snapIndex = 2 ∧
      e ∉ (g''.procs 4).storage.entries := by
  obtain ⟨g, g', g'', run, steps, handled, last, term, -, snapIndex, gone⟩ := late_snapshot
  obtain ⟨g₀, run₀, leads, led, follows, told⟩ : ∃ g₀, Group.play hasty idleMachine ⟨true⟩
      (Group.initial idleMachine) unheardRun = some g₀ ∧ (g₀.procs 0).raft.state = .leader ∧
      (g₀.procs 0).raft.term = 1 ∧ (g₀.procs 4).raft.term = 1 ∧
      .appendReply 4 0 4 unheardRequest { term := 1, success := true } ∈ g₀.net :=
    ⟨_, rfl, rfl, rfl, rfl, by decide⟩
  cases run.symm.trans run₀
  have acknowledged : g.Acknowledged 0 4 1 3 :=
    Or.inr ⟨0, 4, unheardRequest, _, told, rfl, rfl, Nat.le_refl 3⟩
  refine ⟨g, g', g'', _, Group.play_steps run, leads, led, follows, acknowledged, steps, handled,
    rfl, List.mem_of_getLast? last, rfl, term, snapIndex, ?_⟩
  rw [gone]
  exact List.not_mem_nil

end Runs

end EdgeKV
