import EdgeKV.Raft.Reign
import EdgeKV.Raft.Acks

/-!
Leadership transfer. The flag that makes a leader refuse proposals belongs to one
running call: it is set and cleared by that call, or with the leadership. So while the
call runs the leader's log stands still, and what the target had acknowledged when it
was found caught up is all of that log.
-/
namespace EdgeKV

open Consensus (Later)

variable {ID σ : Type}

/-- The transfers that run on a node and the flag of its leadership. -/
structure Transferring (p : Process ID σ) : Prop where
  past : ∀ t ∈ p.transfers, p.raft.Past t.term
  flagged : p.raft.state = .leader → ∀ t ∈ p.transfers, t.term = p.raft.term →
    p.raft.transferTarget = some t.target
  alone : p.raft.state = .leader → p.transfers.countP (·.term = p.raft.term) ≤ 1
  running : p.raft.state = .leader → ∀ x, p.raft.transferTarget = some x →
    ∃ t ∈ p.transfers, t.term = p.raft.term ∧ t.target = x

section Step

variable {p p' : Process ID σ}

theorem transferring_none (none : p.transfers = []) (follows : p.raft.state = .follower) :
    Transferring p where
  past t ht := by rw [none] at ht; cases ht
  flagged leads := nomatch follows.symm.trans leads
  alone leads := nomatch follows.symm.trans leads
  running leads := nomatch follows.symm.trans leads

/-- Nothing changes as long as a node that leads had the same flag before. -/
theorem transferring_kept (h : Transferring p) (past : ∀ t ∈ p.transfers, p'.raft.Past t.term)
    (transfers : p'.transfers = p.transfers)
    (role : p'.raft.state = .leader → p.raft.state = .leader ∧ p'.raft.term = p.raft.term ∧
      p'.raft.transferTarget = p.raft.transferTarget) : Transferring p' := by
  refine ⟨by rw [transfers]; exact past, fun leads => ?_, fun leads => ?_, fun leads => ?_⟩
  all_goals obtain ⟨led, term, target⟩ := role leads
  all_goals rw [transfers, term]
  · rw [target]
    exact h.flagged led
  · exact h.alone led
  · rw [target]
    exact h.running led

variable [DecidableEq ID]

/-- How many calls of a term run, counted around one of them. -/
theorem countP_erase_add {t : Transfer ID} (active : t ∈ p.transfers) (term : Nat) :
    p.transfers.countP (·.term = term) =
      (p.transfers.erase t).countP (·.term = term) + if t.term = term then 1 else 0 := by
  rw [(List.perm_cons_erase active).countP_eq, List.countP_cons]
  simp only [decide_eq_true_eq]

/-- A call that moves on in place of `t`, for the same term and target. -/
theorem transferring_replaced {t : Transfer ID} (t' : Transfer ID) (h : Transferring p)
    (active : t ∈ p.transfers) (term : t'.term = t.term) (target : t'.target = t.target)
    (raft : p'.raft = p.raft) (transfers : p'.transfers = t' :: p.transfers.erase t) : Transferring p' := by
  have from_ {x : Transfer ID} (hx : x ∈ p'.transfers) :
      ∃ y ∈ p.transfers, x.term = y.term ∧ x.target = y.target := by
    rw [transfers] at hx
    rcases List.mem_cons.mp hx with rfl | old
    · exact ⟨t, active, term, target⟩
    · exact ⟨x, List.mem_of_mem_erase old, rfl, rfl⟩
  refine ⟨fun x hx => ?_, fun leads x hx same => ?_, fun leads => ?_, fun leads x set => ?_⟩
  all_goals rw [raft] at *
  · obtain ⟨y, hy, eq, -⟩ := from_ hx
    rw [eq]
    exact h.past y hy
  · obtain ⟨y, hy, eq, target⟩ := from_ hx
    rw [target]
    exact h.flagged leads y hy (eq.symm.trans same)
  · have count := h.alone leads
    rw [countP_erase_add active] at count
    rw [transfers, List.countP_cons, term]
    simpa only [decide_eq_true_eq] using count
  · obtain ⟨y, hy, eq, goes⟩ := h.running leads x set
    rw [transfers]
    by_cases own : y = t
    · subst own
      exact ⟨t', List.mem_cons_self .., term.trans eq, target.trans goes⟩
    · exact ⟨y, List.mem_cons_of_mem _ ((List.mem_erase_of_ne own).mpr hy), eq, goes⟩

theorem transferring_started {cfg : Config ID} {self target : ID} {now : Nat} {t : Transfer ID}
    (h : Transferring p) (began : p.raft.startTransfer cfg self target now = some (p'.raft, t))
    (transfers : p'.transfers = t :: p.transfers) : Transferring p' := by
  obtain ⟨leads, free, raft, rfl⟩ := startTransfer_eq began
  -- the flag was clear, so no call of this leadership is running
  have others {x : Transfer ID} (hx : x ∈ p.transfers) : x.term ≠ p.raft.term := fun same =>
    nomatch free.symm.trans (h.flagged leads x hx same)
  have from_ {x : Transfer ID} (hx : x ∈ p'.transfers) :
      x = { term := p.raft.term, target } ∨ x ∈ p.transfers := List.mem_cons.mp (transfers ▸ hx)
  refine ⟨fun x hx => ?_, fun _ x hx same => ?_, fun _ => ?_, fun _ x set => ?_⟩
  all_goals simp only [raft] at *
  · rcases from_ hx with rfl | old
    · exact past_leads leads
    · exact h.past x old
  · rcases from_ hx with rfl | old
    · rfl
    · exact absurd same (others old)
  · have none : p.transfers.countP (·.term = p.raft.term) = 0 :=
      List.countP_eq_zero.mpr fun x hx => by simpa using others hx
    rw [transfers, List.countP_cons, none]
    split <;> omega
  · rw [transfers]
    exact ⟨_, List.mem_cons_self .., rfl, Option.some.inj set⟩

theorem transferring_ended {t : Transfer ID} (h : Transferring p) (active : t ∈ p.transfers)
    (raft : p'.raft = p.raft.endTransfer t) (transfers : p'.transfers = p.transfers.erase t) :
    Transferring p' := by
  have old {x : Transfer ID} (hx : x ∈ p'.transfers) : x ∈ p.transfers :=
    List.mem_of_mem_erase (transfers ▸ hx)
  rw [Raft.endTransfer] at raft
  split at raft
  next own =>
    -- the call was the only one of this leadership
    have count := h.alone own.1
    rw [countP_erase_add active, if_pos own.2.symm, ← transfers] at count
    have gone : p'.transfers.countP (·.term = p.raft.term) = 0 := by omega
    refine ⟨fun x hx => ?_, fun leads x hx same => ?_, fun leads => ?_, fun leads x set => ?_⟩
    all_goals simp only [raft] at *
    · exact h.past x (old hx)
    · exact absurd (decide_eq_true same) (List.countP_eq_zero.mp gone x hx)
    · omega
    · cases set
  next other =>
    refine ⟨fun x hx => ?_, fun leads x hx same => ?_, fun leads => ?_, fun leads x set => ?_⟩
    all_goals rw [raft] at *
    · exact h.past x (old hx)
    · exact h.flagged leads x (old hx) same
    · rw [transfers]
      exact (List.Sublist.countP_le (List.erase_sublist)).trans (h.alone leads)
    · obtain ⟨y, hy, term, goes⟩ := h.running leads x set
      have apart : y ≠ t := by
        rintro rfl
        exact other ⟨leads, term.symm⟩
      rw [transfers]
      exact ⟨y, (List.mem_erase_of_ne apart).mpr hy, term, goes⟩

theorem transferring_run {cfg : Config ID} {self : ID} {act : Action ID}
    (reign : Reign cfg self p act p') (h : Transferring p) : Transferring p' := by
  have past : ∀ t ∈ p.transfers, p'.raft.Past t.term :=
    fun t ht => reign_past reign (h.past t ht)
  cases reign with
  | rules raft transfers =>
      refine transferring_kept h past transfers fun leads => ?_
      exact ⟨(raft.leads leads).1, (raft.leads leads).2, raft.transferTarget leads⟩
  | elected stood leads term target next matched transfers =>
      -- a candidate has moved past the terms of all running calls
      have before {t : Transfer ID} (ht : t ∈ p'.transfers) : t.term ≠ p'.raft.term := by
        rw [term]
        exact ((h.past t (transfers ▸ ht)).2 stood).ne
      refine ⟨by rw [transfers]; exact past, fun _ t ht same => absurd same (before ht), fun _ => ?_,
        fun _ x set => nomatch target.symm.trans set⟩
      have none : p'.transfers.countP (·.term = p'.raft.term) = 0 :=
        List.countP_eq_zero.mpr fun t ht => by simpa using before ht
      omega
  | extended leads leads' term idle target next matched transfers =>
      exact transferring_kept h past transfers fun _ => ⟨leads, term, target.trans idle.symm⟩
  | compacted stage raft transfers =>
      refine transferring_kept h past transfers fun leads => ?_
      rw [raft] at leads ⊢
      exact ⟨leads, rfl, rfl⟩
  | answered reply leads term current raft transfers =>
      obtain ⟨-, term, -, target⟩ := appendReplyLocked_keeps raft
      exact transferring_kept h past transfers fun _ => ⟨leads, term, target⟩
  | installed reply leads term current raft transfers =>
      obtain ⟨-, term, -, target⟩ := installReplyLocked_keeps raft
      exact transferring_kept h past transfers fun _ => ⟨leads, term, target⟩
  | started began transfers => exact transferring_started h began transfers
  | @ready t active caughtUp raft transfers =>
      exact transferring_replaced { t with ready := true } h active rfl rfl raft transfers
  | @sent t active raft transfers =>
      exact transferring_replaced { t with sent := true } h active rfl rfl raft transfers
  | ended active raft transfers => exact transferring_ended h active raft transfers

theorem transferring_step {cfg : Config ID} {M : StateMachine σ} {T : Transport}
    {g g' : Group ID σ} {n : ID} (step : Group.StepOf cfg M T n g g')
    (h : ∀ m, Transferring (g.procs m)) : ∀ m, Transferring (g'.procs m) := by
  intro m
  by_cases own : m = n
  · subst own
    rcases stepOf_reign step with ⟨act, reign⟩ | ⟨follows, none⟩
    · exact transferring_run reign (h m)
    · exact transferring_none none follows
  · rw [Group.stepOf_other step own]
    exact h m

end Step

section Standstill

variable [DecidableEq ID] {cfg : Config ID} {self : ID} {act : Action ID} {p p' : Process ID σ}

theorem compactTo_lastIndex (l : RaftLog) {i : Nat} (t : Nat) (le : i ≤ l.lastIndex) :
    (l.compactTo i t).lastIndex = l.lastIndex ∧ ∀ e ∈ (l.compactTo i t).entries, e ∈ l.entries := by
  rw [RaftLog.compactTo]
  split
  · exact ⟨rfl, fun _ => id⟩
  · split
    · refine ⟨?_, fun e he => by cases he⟩
      simp only [RaftLog.lastIndex, List.length_nil] at *
      omega
    · refine ⟨?_, fun e he => List.mem_of_mem_drop he⟩
      simp only [RaftLog.lastIndex, List.length_drop] at *
      omega

/-- While a transfer runs and the node leads on, its log only loses what is compacted. -/
theorem reign_standstill (reign : Reign cfg self p act p') (h : Transferring p)
    (compacting : ∀ i t, p.applier = .compacting i t → i ≤ p.raft.rlog.lastIndex)
    {t : Transfer ID} (active : t ∈ p.transfers) (leads : p.raft.state = .leader)
    (term : p.raft.term = t.term) (leads' : p'.raft.state = .leader) :
    p'.raft.rlog.lastIndex = p.raft.rlog.lastIndex ∧
      ∀ e ∈ p'.raft.rlog.entries, e ∈ p.raft.rlog.entries := by
  have same (eq : p'.raft.rlog = p.raft.rlog) :
      p'.raft.rlog.lastIndex = p.raft.rlog.lastIndex ∧
        ∀ e ∈ p'.raft.rlog.entries, e ∈ p.raft.rlog.entries := by
    rw [eq]
    exact ⟨rfl, fun _ => id⟩
  cases reign with
  | rules raft transfers => exact same (raft.rlog leads')
  | elected stood => exact nomatch stood.symm.trans leads
  | extended _ _ _ idle =>
      exact nomatch idle.symm.trans (h.flagged leads t active term.symm)
  | compacted stage raft transfers =>
      rw [raft]
      exact compactTo_lastIndex _ _ (compacting _ _ stage)
  | answered reply leads term current raft transfers =>
      exact same (appendReplyLocked_keeps raft).2.2.1
  | installed reply leads term current raft transfers =>
      exact same (installReplyLocked_keeps raft).2.2.1
  | started began transfers => exact same (by rw [(startTransfer_eq began).2.2.1])
  | ready active caughtUp raft transfers => exact same (by rw [raft])
  | sent active raft transfers => exact same (by rw [raft])
  | ended active raft transfers =>
      exact same (by rw [raft]; exact (endTransfer_role _ _).2.2)

/-- A call that is past the check was so before, or its target has just been found to
have acknowledged the whole log. -/
theorem reign_ready (reign : Reign cfg self p act p') {t : Transfer ID} (active : t ∈ p'.transfers)
    (ready : t.ready = true) :
    (∃ t₀ ∈ p.transfers, t₀.ready = true ∧ t₀.term = t.term ∧ t₀.target = t.target) ∨
      (p'.raft = p.raft ∧ p.raft.state = .leader ∧ p.raft.term = t.term ∧
        p.raft.matchIndex t.target = p.raft.rlog.lastIndex) := by
  have old {x : Transfer ID} (hx : x ∈ p.transfers) (passed : x.ready = true)
      (term : x.term = t.term) (target : x.target = t.target) :
      ∃ t₀ ∈ p.transfers, t₀.ready = true ∧ t₀.term = t.term ∧ t₀.target = t.target :=
    ⟨x, hx, passed, term, target⟩
  have kept (transfers : p'.transfers = p.transfers) := old (transfers ▸ active) ready rfl rfl
  cases reign with
  | rules raft transfers => exact Or.inl (kept transfers)
  | elected _ _ _ _ _ _ transfers => exact Or.inl (kept transfers)
  | extended _ _ _ _ _ _ _ transfers => exact Or.inl (kept transfers)
  | compacted stage raft transfers => exact Or.inl (kept transfers)
  | answered reply leads term current raft transfers => exact Or.inl (kept transfers)
  | installed reply leads term current raft transfers => exact Or.inl (kept transfers)
  | started began transfers =>
      rw [transfers] at active
      rcases List.mem_cons.mp active with rfl | before
      · rw [(startTransfer_eq began).2.2.2] at ready
        cases ready
      · exact Or.inl (old before ready rfl rfl)
  | @ready t₀ running caughtUp raft transfers =>
      rw [transfers] at active
      rcases List.mem_cons.mp active with rfl | before
      · simp only [Raft.caughtUp, decide_eq_true_eq] at caughtUp
        exact Or.inr ⟨raft, caughtUp⟩
      · exact Or.inl (old (List.mem_of_mem_erase before) ready rfl rfl)
  | @sent t₀ running raft transfers =>
      rw [transfers] at active
      rcases List.mem_cons.mp active with rfl | before
      · exact Or.inl (old running ready rfl rfl)
      · exact Or.inl (old (List.mem_of_mem_erase before) ready rfl rfl)
  | ended running raft transfers =>
      exact Or.inl (old (List.mem_of_mem_erase (transfers ▸ active)) ready rfl rfl)

end Standstill

section Runs

/-- The target of a call that is past the check has acknowledged the leader's log. -/
def CaughtUp (a : Abs ID) (p : Process ID σ) : Prop :=
  p.raft.state = .leader → ∀ t ∈ p.transfers, t.ready = true → t.term = p.raft.term →
    p.raft.rlog.lastIndex ≤ a.acked t.target t.term

/-- The target of a call of term `T` that is past the check has acknowledged `c` entries. -/
structure Covered (T c : Nat) (a : Abs ID) (p : Process ID σ) : Prop where
  ledger : c ≤ (a.ledger T).length
  acked : ∀ t ∈ p.transfers, t.ready = true → t.term = T → c ≤ a.acked t.target T

variable {M : StateMachine σ} {n : ID} {a a' : Abs ID}

theorem node_compacting {p : Process ID σ} (h : Node M a n p) {i t : Nat}
    (stage : p.applier = .compacting i t) : i ≤ p.raft.rlog.lastIndex := by
  have staged := h.working.stage
  rw [stage] at staged
  rw [holds_lastIndex h.log, staged.1]
  exact h.working.applied_le.trans h.commit_le

variable [DecidableEq ID] {cfg : Config ID} {T : Transport} {g g' : Group ID σ}

theorem caughtUp_step (rel : Rel cfg M a g) (grows : Consensus.Grows n a a')
    (step : Group.StepOf cfg M T n g g')
    (h : ∀ m, Transferring (g.procs m) ∧ CaughtUp a (g.procs m)) :
    ∀ m, Transferring (g'.procs m) ∧ CaughtUp a' (g'.procs m) := by
  intro m
  refine ⟨transferring_step step (fun m => (h m).1) m, fun leads t active ready term => ?_⟩
  by_cases own : m = n
  · subst own
    rcases stepOf_reign step with ⟨act, reign⟩ | ⟨follows, -⟩
    · rcases reign_ready reign active ready with
        ⟨t₀, before, passed, term₀, target⟩ | ⟨same, led, current, caught⟩
      · have past := (h m).1.past t₀ before
        rw [term₀.trans term] at past
        obtain ⟨led, current⟩ := reign_leads reign leads past
        have still := term₀.trans (term.trans current)
        rw [(reign_standstill reign (h m).1 (fun _ _ => node_compacting (rel.nodes m)) before led
          still.symm leads).1, ← term₀, ← target]
        exact ((h m).2 led t₀ before passed still).trans (grows.acked _ _)
      · have matched := ((rel.nodes m).leads led).matched t.target
        rw [same, ← current, ← caught]
        exact matched.trans (grows.acked _ _)
    · exact nomatch follows.symm.trans leads
  · rw [Group.stepOf_other step own] at leads active term ⊢
    exact ((h m).2 leads t active ready term).trans (grows.acked _ _)

theorem reachable_caughtUp (honours : T.HonoursContext) (h : Group.Reachable cfg M T g) :
    ∃ a, Rel cfg M a g ∧ ∀ m, Transferring (g.procs m) ∧ CaughtUp a (g.procs m) := by
  have start (m : ID) : Transferring ((Group.initial M).procs m) ∧
      CaughtUp (Consensus.State.initial : Abs ID) ((Group.initial M).procs m) :=
    ⟨transferring_none rfl rfl, fun leads => nomatch leads⟩
  obtain ⟨a, -, rel, caught⟩ :=
    rel_induct (I := fun a g => ∀ m, Transferring (g.procs m) ∧ CaughtUp a (g.procs m)) honours
      (fun rel _ advance step h => caughtUp_step rel advance.grows step h) (rel_initial M) start h
  exact ⟨a, rel, caught⟩

theorem covered_step {m : ID} {t c : Nat} (rel : Rel cfg M a g) (grows : Consensus.Grows n a a')
    (step : Group.StepOf cfg M T n g g') (h : Covered t c a (g.procs m)) :
    Covered t c a' (g'.procs m) := by
  refine ⟨h.ledger.trans (grows.ledger t).length_le, fun x active ready term => ?_⟩
  by_cases own : m = n
  · subst own
    rcases stepOf_reign step with ⟨act, reign⟩ | ⟨-, none⟩
    · rcases reign_ready reign active ready with
        ⟨x₀, before, passed, term₀, target⟩ | ⟨-, led, current, caught⟩
      · rw [← target]
        exact (h.acked x₀ before passed (term₀.trans term)).trans (grows.acked _ _)
      · have node := rel.nodes m
        have leader := node.leads led
        have matched := leader.matched x.target
        have log := rel.sound.inv.leader_log leader.leader node.term.symm
        rw [caught, holds_lastIndex node.log, log, current.trans term] at matched
        exact (h.ledger.trans matched).trans (grows.acked _ _)
    · rw [none] at active
      cases active
  · rw [Group.stepOf_other step own] at active
    exact (h.acked x active ready term).trans (grows.acked _ _)

/-- Whatever a leader of a term has had in its log, the target of a call of that term has
acknowledged by the time the call is past the check. -/
theorem ready_acked (honours : T.HonoursContext) {g₀ : Group ID σ}
    (reachable : Group.Reachable cfg M T g₀) (steps : Group.Steps cfg M T g₀ g)
    {t : Transfer ID} (leads : (g₀.procs n).raft.state = .leader)
    (term : (g₀.procs n).raft.term = t.term) (active : t ∈ (g.procs n).transfers)
    (ready : t.ready = true) :
    ∃ a₀ a, Rel cfg M a₀ g₀ ∧ Later a₀ a ∧ Rel cfg M a g ∧
      (g₀.procs n).raft.rlog.lastIndex ≤ a.acked t.target t.term := by
  obtain ⟨a₀, rel₀, caught⟩ := reachable_caughtUp honours reachable
  have node := rel₀.nodes n
  have log := rel₀.sound.inv.leader_log (node.leads leads).leader node.term.symm
  have covered : Covered t.term (g₀.procs n).raft.rlog.lastIndex a₀ (g₀.procs n) := by
    refine ⟨?_, fun x hx passed same => ?_⟩
    · rw [holds_lastIndex node.log, log, term]
    · rw [← same]
      exact (caught n).2 leads x hx passed (same.trans term.symm)
  obtain ⟨a, later, rel, covered'⟩ :=
    rel_induct (I := fun a g => Covered t.term (g₀.procs n).raft.rlog.lastIndex a (g.procs n)) honours
      (fun rel _ advance step h => covered_step rel advance.grows step h) rel₀ covered steps
  exact ⟨a₀, a, rel₀, later, rel, covered'.acked t active ready rfl⟩

/-- The entries that a leader makes of a batch continue its log. -/
theorem appendProposals_extends {r : Raft ID} (leads : r.state = .leader)
    (free : r.transferTarget = none) (running : r.stopped = false) (batch : List Proposal) :
    ∃ r', (r.appendProposals cfg n batch).2 = some r' ∧
      r'.rlog.entries = r.rlog.entries ++ r.proposalEntries batch := by
  have index : ∀ k e, (r.proposalEntries batch)[k]? = some e → e.index = r.rlog.lastIndex + 1 + k := by
    intro k e there
    obtain ⟨q, -, rfl⟩ := r.proposalEntries_at there
    rfl
  have able : ¬ (r.state ≠ .leader ∨ r.transferTarget ≠ none ∨ r.stopped = true) := by
    rw [leads, free, running]
    simp
  simp only [Raft.appendProposals, if_neg able, append_some index]
  exact ⟨_, rfl, by rw [Raft.advanceCommitLocked_eq]⟩

/-- A call of `TimeoutNow` goes to a target that has on disk all that the leader of its
term has had in its log, unless the target has moved to a later term; the log stands
still while the transfer runs; and proposals are refused only while one does. -/
theorem transfer_keeps_writes (cfg : Config ID) (M : StateMachine σ) (T : Transport)
    (honours : T.HonoursContext) (g : Group ID σ) (reachable : Group.Reachable cfg M T g) (n : ID) :
    (∀ g₀ g' t, Group.Reachable cfg M T g₀ → Group.Steps cfg M T g₀ g →
      Group.Performs cfg M T n (.client (.sendTimeoutNow t)) g g' →
      (g₀.procs n).raft.state = .leader → (g₀.procs n).raft.term = t.term →
      (g.procs t.target).raft.term ≤ t.term →
      ∀ i, 0 < i → i ≤ (g₀.procs n).raft.rlog.lastIndex →
        ∃ e, e.index = i ∧ (g.procs t.target).storage.Retains M e ∧ (g₀.procs n).Retains M e ∧
          ∀ e' ∈ (g₀.procs n).raft.rlog.entries, e'.index = i → e' = e) ∧
    (∀ t ∈ (g.procs n).transfers, (g.procs n).raft.state = .leader →
      (g.procs n).raft.term = t.term → ∀ g', Group.Step cfg M T g g' →
      (g'.procs n).raft.state = .leader → (g'.procs n).raft.term = t.term →
        (g'.procs n).raft.rlog.lastIndex = (g.procs n).raft.rlog.lastIndex ∧
        ∀ e ∈ (g'.procs n).raft.rlog.entries, e ∈ (g.procs n).raft.rlog.entries) ∧
    (∀ x, (g.procs n).raft.state = .leader → (g.procs n).raft.transferTarget = some x →
      ∃ t ∈ (g.procs n).transfers, t.term = (g.procs n).raft.term ∧ t.target = x) ∧
    ((g.procs n).transfers = [] → (g.procs n).raft.state = .leader →
      (g.procs n).raft.stopped = false → ∀ batch,
        ∃ r, ((g.procs n).raft.appendProposals cfg n batch).2 = some r ∧ r.rlog.entries =
          (g.procs n).raft.rlog.entries ++ (g.procs n).raft.proposalEntries batch) := by
  obtain ⟨a, rel, caught⟩ := reachable_caughtUp honours reachable
  have transferring := (caught n).1
  refine ⟨fun g₀ g' t reachable₀ steps sends leads term behind i pos le => ?_,
    fun t active leads term g' step leads' term' => ?_, fun x leads set => ?_,
    fun none leads running batch => ?_⟩
  · obtain ⟨out, p, sent, s, enabled, -⟩ := sends
    cases exec_effect enabled.exec with
    | sendTimeoutNow active unsent ready =>
        obtain ⟨a₀, a, rel₀, later, rel, acked⟩ :=
          ready_acked honours reachable₀ steps leads term active ready
        have current : a.term t.target = t.term := by
          refine Nat.le_antisymm ((rel.nodes _).term ▸ behind) ?_
          exact rel.sound.inv.acked_term (pos.trans_le (le.trans acked))
        obtain ⟨e, led, own⟩ := acked_entry rel.sound current (i := i - 1) (by omega)
        have index := log_indexed rel.sound _ _ e own
        rw [Nat.sub_add_cancel pos] at index
        have stored := storage_retains (rel.nodes t.target) (by omega) (index.symm ▸ own)
        have node := rel₀.nodes n
        have log := rel₀.sound.inv.leader_log (node.leads leads).leader node.term.symm
        rw [term] at log
        rw [holds_lastIndex node.log] at le
        have there : (a₀.log n)[e.index - 1]? = some e := by
          have inside : i - 1 < (a₀.log n).length := by omega
          rw [index, List.getElem?_eq_getElem inside, ← led]
          refine (getElem?_of_pre (log ▸ Consensus.later_ledger later t.term) ?_).symm
          exact List.getElem?_eq_getElem inside
        refine ⟨e, index, stored, node_retains node (by omega) there, fun e' he' same => ?_⟩
        obtain ⟨-, there'⟩ := held_entry node.log (log_indexed rel₀.sound n) he'
        rw [same, ← index] at there'
        exact Option.some.inj (there'.symm.trans there)
  · obtain ⟨m, step⟩ := step
    by_cases own : n = m
    · subst own
      rcases stepOf_reign step with ⟨act, reign⟩ | ⟨follows, -⟩
      · exact reign_standstill reign transferring (fun _ _ => node_compacting (rel.nodes n)) active
          leads term leads'
      · exact nomatch follows.symm.trans leads'
    · rw [Group.stepOf_other step own]
      exact ⟨rfl, fun _ => id⟩
  · exact transferring.running leads x set
  · refine appendProposals_extends leads ?_ running batch
    cases set : (g.procs n).raft.transferTarget with
    | none => rfl
    | some x =>
        obtain ⟨t, active, -⟩ := transferring.running leads x set
        rw [none] at active
        cases active

/-- After `committedRun`, node 0 finds node 1 caught up and hands over to it. -/
def handoverRun : List (Nat × Action Nat) :=
  let t : Transfer Nat := { term := 1, target := 1 }
  committedRun ++ [(0, .client (.startTransfer 1 4)), (0, .client (.targetReady t))]

theorem transfer_keeps_writes_handover :
    ∃ g g' : Group Nat Unit, Group.Reachable trio idleMachine ⟨false⟩ g ∧
      Group.Performs trio idleMachine ⟨false⟩ 0 (.client (.sendTimeoutNow ⟨1, 1, true, false⟩)) g g' ∧
      ∃ e ∈ (g.procs 1).storage.entries, e.index = 1 ∧ (g.procs 0).Retains idleMachine e := by
  obtain ⟨g, hg, g', hg', leads, led, behind, long, kept⟩ :
      ∃ g, Group.play trio idleMachine ⟨false⟩ (Group.initial idleMachine) handoverRun = some g ∧
      ∃ g', Group.act trio idleMachine ⟨false⟩ g 0
        (.client (.sendTimeoutNow ⟨1, 1, true, false⟩)) = some g' ∧
      (g.procs 0).raft.state = .leader ∧ (g.procs 0).raft.term = 1 ∧ (g.procs 1).raft.term ≤ 1 ∧
      1 ≤ (g.procs 0).raft.rlog.lastIndex ∧ (g.procs 1).storage.snapIndex = 0 :=
    ⟨_, rfl, _, rfl, rfl, rfl, by decide, by decide, rfl⟩
  have reachable : Group.Reachable trio idleMachine ⟨false⟩ g := Group.play_steps hg
  have sends := Group.act_enabled hg'
  obtain ⟨e, index, stored, retained, -⟩ :=
    (transfer_keeps_writes trio idleMachine ⟨false⟩ rfl g reachable 0).1 g g' ⟨1, 1, true, false⟩
      reachable .refl sends leads led behind 1 Nat.one_pos long
  have outside : ¬ e.index ≤ (g.procs 1).storage.snapIndex := by
    rw [kept, index]
    exact Nat.not_succ_le_zero 0
  exact ⟨g, g', reachable, sends, e, stored.resolve_right fun inside => outside inside.1, index,
    retained⟩

end Runs

section Samples

/-- Node 0 leads term 1 and has replicated its no-op to node 1 alone when node 2 is elected
in term 2 by nodes 3 and 4 and overwrites the no-op at node 1. Node 0, which has heard of
nothing, takes node 1 for caught up. -/
def overtakenRun : List (Nat × Action Nat) :=
  let first : RequestVoteRequest Nat :=
    { term := 1, candidateId := 0, lastLogIndex := 0, lastLogTerm := 0, preVote := true }
  let second : RequestVoteRequest Nat := { first with term := 2, candidateId := 2 }
  let append (term leader : Nat) : AppendEntriesRequest Nat :=
    { term, leaderId := leader, prevLogIndex := 0, prevLogTerm := 0
      entries := [{ index := 1, term, type := .noop, data := [] }], leaderCommit := 0 }
  quintetElection 0 1 2 first 0 0 ++
    [(0, .replication (.replicate 1)), (0, .replication (.send (.append 1 (append 1 0)) 2)),
      (1, .replication (.appendEntries 2 (append 1 0))),
      (0, .replication (.appendReply 1 2 (append 1 0) { term := 1, success := true }))] ++
  quintetElection 2 3 4 second 0 0 ++
    [(2, .replication (.replicate 1)), (2, .replication (.send (.append 1 (append 2 2)) 2)),
      (1, .replication (.appendEntries 2 (append 2 2))),
      (0, .client (.startTransfer 1 3)), (0, .client (.targetReady ⟨1, 1, false, false⟩))]

/-- A target that has moved to a later term need not hold the leader's log any more. -/
theorem overtaken_target_lacks_entry :
    ∃ (g g' : Group Nat Unit) (e : Entry), Group.Reachable quintet idleMachine ⟨false⟩ g ∧
      Group.Performs quintet idleMachine ⟨false⟩ 0 (.client (.sendTimeoutNow ⟨1, 1, true, false⟩))
        g g' ∧
      (g.procs 0).raft.state = .leader ∧ (g.procs 0).raft.term = 1 ∧
      e ∈ (g.procs 0).raft.rlog.entries ∧ e ∉ (g.procs 1).storage.entries ∧
      (g.procs 1).storage.snapIndex = 0 := by
  obtain ⟨g, hg, g', hg', leads, led, there, gone, kept⟩ :
      ∃ g, Group.play quintet idleMachine ⟨false⟩ (Group.initial idleMachine) overtakenRun = some g ∧
      ∃ g', Group.act quintet idleMachine ⟨false⟩ g 0
        (.client (.sendTimeoutNow ⟨1, 1, true, false⟩)) = some g' ∧
      (g.procs 0).raft.state = .leader ∧ (g.procs 0).raft.term = 1 ∧
      (⟨1, 1, .noop, []⟩ : Entry) ∈ (g.procs 0).raft.rlog.entries ∧
      (⟨1, 1, .noop, []⟩ : Entry) ∉ (g.procs 1).storage.entries ∧
      (g.procs 1).storage.snapIndex = 0 :=
    ⟨_, rfl, _, rfl, rfl, rfl, by decide, by decide, rfl⟩
  exact ⟨g, g', _, Group.play_steps hg, Group.act_enabled hg', leads, led, there, gone, kept⟩

end Samples
end EdgeKV
