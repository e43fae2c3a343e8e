import EdgeKV.Consensus.Invariant

/-!
Every move preserves the invariant. The history components only grow, so most
clauses carry over; what each move has to argue is the clause it feeds: a vote
the completeness of the candidate, an adoption the prefixes already held.
-/
namespace Consensus

variable {N E : Type} {Q : Quorums N} {tm : E → Nat} {n : N} {s s' : State N E}

theorem inv_initial : Inv Q tm (State.initial : State N E) where
  voted_le h := h.elim
  voted_stood h := h.elim
  cand_le h := by cases h
  cand_matched h := by cases h
  cand_term h := by cases h
  leader_votes h := by cases h
  leader_stood h := by cases h
  vacant _ := rfl
  leader_log h := by cases h
  log_matched _ i one len := by simp [State.initial] at len; omega
  log_term _ i := by cases i <;> simp [State.initial, termAt]
  acked_le _ _ := Nat.zero_le _
  acked_term h := by simp [State.initial] at h
  held _ _ one h := by simp [State.initial] at h; omega
  current _ := by simp [State.initial]
  elected _ _ one h := by simp [State.initial] at h; omega
  committed h := by simp [State.initial] at h

/-- Choosable positions of a grown state were choosable before, as long as no
acknowledgement appeared that its node could not have given already. -/
theorem choosable_of_grows (term : ∀ m, s.term m ≤ s'.term m)
    (acked : ∀ m t, s'.acked m t ≤ s.acked m t ∨ s.term m ≤ t) {t c : Nat}
    (h : Choosable Q s' t c) : Choosable Q s t c := by
  apply Q.mono h
  rintro v (done | early)
  · rcases acked v t with le | le
    · exact Or.inl (done.trans le)
    · exact Or.inr le
  · exact Or.inr ((term v).trans early)

theorem inv_vote (inv : Inv Q tm s) {c : N} {L : List E}
    (stood : s.cand (s.term n) c = some L) (up : UpToDate tm L (s.log n)) :
    Inv Q tm (s.vote n c) := by
  exact { inv with
    voted_le := fun h => by
      rcases h with h | ⟨rfl, rfl, rfl⟩
      · exact inv.voted_le h
      · exact le_rfl
    voted_stood := fun h => by
      rcases h with h | ⟨rfl, rfl, rfl⟩
      · exact inv.voted_stood h
      · exact ⟨L, stood⟩
    leader_votes := fun h => Q.mono (inv.leader_votes h) (fun _ => Or.inl)
    elected := fun {t k u m x K} ch own one done lt voted standing => by
      rcases voted with voted | ⟨rfl, rfl, rfl⟩
      · exact inv.elected ch own one done lt voted standing
      · have same : L = K := Option.some.inj (stood.symm.trans standing)
        subst same
        exact upToDate_holds inv ch own one (done.trans (inv.acked_le _ _))
          (inv.cand_matched stood) (inv.log_matched _) (inv.held ch own one done) up }

theorem inv_commitTo (inv : Inv Q tm s) {c : Nat} (own : termAt tm (s.ledger (s.term n)) c = s.term n)
    (quorum : Q.IsQuorum fun v => c ≤ s.acked v (s.term n)) : Inv Q tm (s.commitTo n c) := by
  exact { inv with
    committed := fun {t} h => by
      by_cases ht : t = s.term n
      · subst ht
        simp only [State.commitTo, Function.update_self]
        obtain ⟨v, hv, _⟩ := Q.meets quorum quorum
        exact ⟨hv.trans (inv.acked_le v _), own, quorum⟩
      · simp only [State.commitTo, Function.update_of_ne ht] at h ⊢
        exact inv.committed h }

variable [DecidableEq N]

theorem grows_step (inv : Inv Q tm s) (move : Step Q tm n s s') : Grows n s s' := by
  cases move with
  | newTerm t later =>
      exact { grows_refl n s with
        term := fun m => by
          by_cases h : m = n
          · subst h; simp [State.newTerm]; omega
          · simp [State.newTerm, h]
        otherTerm := fun m h => by simp [State.newTerm, h] }
  | campaign =>
      exact { grows_refl n s with
        term := fun m => by
          by_cases h : m = n
          · subst h; simp [State.campaign]
          · simp [State.campaign, h]
        voted := fun h => Or.inl h
        cand := fun {t m L} le h => by
          have hne : ¬(t = s.term n + 1 ∧ m = n) := by
            rintro ⟨rfl, rfl⟩; omega
          simpa [State.campaign, hne] using h
        otherTerm := fun m h => by simp [State.campaign, h] }
  | vote c L stood up => exact { grows_refl n s with voted := fun h => Or.inl h }
  | elect vacant stood quorum =>
      exact { grows_refl n s with
        leader := fun {t m} h => by
          by_cases ht : t = s.term n
          · subst ht; rw [vacant] at h; cases h
          · simpa [State.elect, ht] using h
        ledger := fun t => by
          by_cases ht : t = s.term n
          · subst ht; rw [inv.vacant vacant]; exact List.nil_prefix
          · simp [State.elect, ht]
        otherLeader := fun {t m} other h => by
          by_cases ht : t = s.term n
          · subst ht
            simp only [State.elect, Function.update_self, Option.some.injEq] at h
            exact absurd h.symm other
          · simpa [State.elect, ht] using h }
  | append e leads own =>
      exact { grows_refl n s with
        ledger := fun t => by
          by_cases ht : t = s.term n
          · subst ht; simp [State.append]
          · simp [State.append, ht]
        otherLog := fun m h => by simp [State.append, h] }
  | accept q led =>
      exact { grows_refl n s with
        otherLog := fun m h => by simp [State.accept, h] }
  | ack q bound holds =>
      exact { grows_refl n s with
        acked := fun m t => by
          simp only [State.ack]
          split
          · exact le_max_left _ _
          · exact le_rfl }
  | commitTo c leads later own quorum =>
      exact { grows_refl n s with
        commit := fun t => by
          by_cases ht : t = s.term n
          · subst ht; simp [State.commitTo]; omega
          · simp [State.commitTo, ht]
        otherCommit := fun {t m} other h => by
          have ht : t ≠ s.term n := by
            rintro rfl
            exact other (Option.some.inj (h.symm.trans leads))
          simp [State.commitTo, ht] }

theorem inv_newTerm (inv : Inv Q tm s) {t : Nat} (later : s.term n < t) :
    Inv Q tm (s.newTerm n t) := by
  have term : ∀ m, s.term m ≤ (s.newTerm n t).term m :=
    (grows_step inv (.newTerm t later)).term
  have back {u c : Nat} (h : Choosable Q (s.newTerm n t) u c) : Choosable Q s u c :=
    choosable_of_grows term (fun _ _ => Or.inl le_rfl) h
  exact {
    voted_le := fun h => (inv.voted_le h).trans (term _)
    voted_stood := inv.voted_stood
    cand_le := fun h => (inv.cand_le h).trans (term _)
    cand_matched := inv.cand_matched
    cand_term := inv.cand_term
    leader_votes := inv.leader_votes
    leader_stood := inv.leader_stood
    vacant := inv.vacant
    leader_log := fun {u m} hl ht => by
      by_cases hm : m = n
      · -- the new term is past every term this node could lead
        subst hm
        obtain ⟨L, stood, _⟩ := inv.leader_stood hl
        have := inv.cand_le stood
        simp [State.newTerm] at ht
        omega
      · exact inv.leader_log hl (by simpa [State.newTerm, hm] using ht)
    log_matched := inv.log_matched
    log_term := fun m i => (inv.log_term m i).trans (term m)
    acked_le := inv.acked_le
    acked_term := fun h => (inv.acked_term h).trans (term _)
    held := fun ch own one done => inv.held (back ch) own one done
    current := fun {m u} ht => by
      by_cases hm : m = n
      · subst hm
        simp [State.newTerm] at ht
        have none : s.acked m u = 0 := by
          by_contra h
          have := inv.acked_term (n := m) (t := u) (by omega)
          omega
        change (s.ledger u).take (s.acked m u) <+: s.log m
        rw [none]
        exact List.nil_prefix
      · exact inv.current (by simpa [State.newTerm, hm] using ht)
    elected := fun ch own one done lt voted stood =>
      inv.elected (back ch) own one done lt voted stood
    committed := inv.committed }

theorem inv_campaign (inv : Inv Q tm s) : Inv Q tm (s.campaign n) := by
  have g : Grows n s (s.campaign n) := grows_step inv Step.campaign
  have back {u c : Nat} (h : Choosable Q (s.campaign n) u c) : Choosable Q s u c :=
    choosable_of_grows g.term (fun _ _ => Or.inl le_rfl) h
  have self : (s.campaign n).term n = s.term n + 1 := by simp [State.campaign]
  have stand {t : Nat} {m : N} {L : List E} (h : (s.campaign n).cand t m = some L) :
      s.cand t m = some L ∨ (t = s.term n + 1 ∧ m = n ∧ L = s.log n) := by
    by_cases hn : t = s.term n + 1 ∧ m = n
    · simp only [State.campaign, hn, and_self, if_true, Option.some.injEq] at h
      exact Or.inr ⟨hn.1, hn.2, h.symm⟩
    · simp only [State.campaign, hn, if_false] at h
      exact Or.inl h
  exact {
    voted_le := fun h => by
      rcases h with h | ⟨rfl, rfl, rfl⟩
      · exact (inv.voted_le h).trans (g.term _)
      · exact self.ge
    voted_stood := fun h => by
      rcases h with h | ⟨rfl, rfl, rfl⟩
      · obtain ⟨L, stood⟩ := inv.voted_stood h
        exact ⟨L, g.cand (inv.cand_le stood) stood⟩
      · exact ⟨_, if_pos ⟨rfl, rfl⟩⟩
    cand_le := fun h => by
      rcases stand h with h | ⟨rfl, rfl, _⟩
      · exact (inv.cand_le h).trans (g.term _)
      · exact self.ge
    cand_matched := fun h => by
      rcases stand h with h | ⟨_, _, rfl⟩
      · exact inv.cand_matched h
      · exact inv.log_matched n
    cand_term := fun h i => by
      rcases stand h with h | ⟨rfl, _, rfl⟩
      · exact inv.cand_term h i
      · exact Nat.lt_succ_of_le (inv.log_term n i)
    leader_votes := fun h => Q.mono (inv.leader_votes h) (fun _ => Or.inl)
    leader_stood := fun h => by
      obtain ⟨L, stood, rest⟩ := inv.leader_stood h
      exact ⟨L, g.cand (inv.cand_le stood) stood, rest⟩
    vacant := inv.vacant
    leader_log := fun {u m} hl ht => by
      by_cases hm : m = n
      · subst hm
        obtain ⟨L, stood, _⟩ := inv.leader_stood hl
        have := inv.cand_le stood
        omega
      · exact inv.leader_log hl (by simpa [State.campaign, hm] using ht)
    log_matched := inv.log_matched
    log_term := fun m i => (inv.log_term m i).trans (g.term m)
    acked_le := inv.acked_le
    acked_term := fun h => (inv.acked_term h).trans (g.term _)
    held := fun ch own one done => inv.held (back ch) own one done
    current := fun {m u} ht => by
      by_cases hm : m = n
      · subst hm
        have none : s.acked m u = 0 := by
          by_contra h
          have := inv.acked_term (n := m) (t := u) (by omega)
          omega
        change (s.ledger u).take (s.acked m u) <+: s.log m
        rw [none]
        exact List.nil_prefix
      · exact inv.current (by simpa [State.campaign, hm] using ht)
    elected := fun {t c u m x L} ch own one done lt voted stood => by
      rcases stand stood with old | ⟨rfl, rfl, rfl⟩
      · rcases voted with voted | ⟨rfl, rfl, rfl⟩
        · exact inv.elected (back ch) own one done lt voted old
        · have := inv.cand_le old
          omega
      · -- only the candidate itself can have voted in its new term
        rcases voted with voted | ⟨rfl, _, _⟩
        · obtain ⟨K, old⟩ := inv.voted_stood voted
          have := inv.cand_le old
          omega
        · exact inv.held (back ch) own one done
    committed := inv.committed }

theorem inv_elect (inv : Inv Q tm s) (vacant : s.leader (s.term n) = none)
    (stood : s.cand (s.term n) n = some (s.log n))
    (quorum : Q.IsQuorum fun v => s.voted v (s.term n) n) : Inv Q tm (s.elect n) := by
  have g : Grows n s (s.elect n) := grows_step inv (.elect vacant stood quorum)
  have fresh {t : Nat} (h : t ≠ s.term n) : (s.elect n).ledger t = s.ledger t := by
    simp [State.elect, h]
  have inherited : (s.elect n).ledger (s.term n) = s.log n := by simp [State.elect]
  -- the log a leader starts from has no entry of its own term
  have old {t c : Nat} (own : termAt tm ((s.elect n).ledger t) c = t) (one : 1 ≤ c)
      (done : c ≤ s.acked n t ∨ ∃ m, c ≤ s.acked m t) : t ≠ s.term n := by
    rintro rfl
    rw [inherited] at own
    have := inv.cand_term stood c
    omega
  exact { inv with
    cand_matched := fun h => matched_grows g (inv.cand_matched h)
    leader_votes := fun {t m} h => by
      by_cases ht : t = s.term n
      · subst ht
        simp only [State.elect, Function.update_self, Option.some.injEq] at h
        subst h
        exact quorum
      · exact inv.leader_votes (by simpa [State.elect, ht] using h)
    leader_stood := fun {t m} h => by
      by_cases ht : t = s.term n
      · subst ht
        simp only [State.elect, Function.update_self, Option.some.injEq] at h
        subst h
        refine ⟨s.log n, stood, inherited ▸ List.prefix_rfl, fun i hi len => ?_⟩
        rw [inherited] at len
        omega
      · rw [fresh ht]
        exact inv.leader_stood (by simpa [State.elect, ht] using h)
    vacant := fun {t} h => by
      by_cases ht : t = s.term n
      · subst ht; simp [State.elect] at h
      · rw [fresh ht]
        exact inv.vacant (by simpa [State.elect, ht] using h)
    leader_log := fun {t m} h hm => by
      by_cases ht : t = s.term n
      · subst ht
        simp only [State.elect, Function.update_self, Option.some.injEq] at h
        subst h
        exact inherited.symm
      · rw [fresh ht]
        exact inv.leader_log (by simpa [State.elect, ht] using h) hm
    log_matched := fun m => matched_grows g (inv.log_matched m)
    acked_le := fun m t => (inv.acked_le m t).trans (g.ledger t).length_le
    held := fun {t c m} ch own one done => by
      have ht := old own one (Or.inr ⟨m, done⟩)
      rw [fresh ht] at own ⊢
      exact inv.held ch own one done
    current := fun {m t} hm => by
      change ((s.elect n).ledger t).take (s.acked m t) <+: s.log m
      have same := take_eq_of_common (g.ledger t) List.prefix_rfl (inv.acked_le m t)
        ((inv.acked_le m t).trans (g.ledger t).length_le)
      rw [← same]
      exact inv.current hm
    elected := fun {t c u m x L} ch own one done lt voted standing => by
      have ht := old own one (Or.inr ⟨m, done⟩)
      rw [fresh ht] at own ⊢
      exact inv.elected ch own one done lt voted standing
    committed := fun {t} h => by
      obtain ⟨len, own, acks⟩ := inv.committed h
      have same : termAt tm (s.ledger t) (s.commit t) = _ := termAt_eq_of_pre (g.ledger t) len
      exact ⟨len.trans (g.ledger t).length_le, same ▸ own, acks⟩ }

theorem inv_append (inv : Inv Q tm s) {e : E} (leads : s.leader (s.term n) = some n)
    (own : tm e = s.term n) : Inv Q tm (s.append n e) := by
  have g : Grows n s (s.append n e) := grows_step inv (.append e leads own)
  have other {t : Nat} (h : t ≠ s.term n) : (s.append n e).ledger t = s.ledger t := by
    simp [State.append, h]
  have longer : (s.append n e).ledger (s.term n) = s.ledger (s.term n) ++ [e] := by
    simp [State.append]
  have logn : (s.append n e).log n = (s.append n e).ledger (s.term n) := by
    rw [longer, ← inv.leader_log leads rfl]; simp [State.append]
  have agree {t i : Nat} (hi : i ≤ (s.ledger t).length) :
      ((s.append n e).ledger t).take i = (s.ledger t).take i :=
    (take_eq_of_common (g.ledger t) List.prefix_rfl hi (hi.trans (g.ledger t).length_le)).symm
  have sameTerm {t i : Nat} (hi : i ≤ (s.ledger t).length) :
      termAt tm ((s.append n e).ledger t) i = termAt tm (s.ledger t) i :=
    (termAt_eq_of_pre (g.ledger t) hi).symm
  exact { inv with
    cand_matched := fun h => matched_grows g (inv.cand_matched h)
    leader_stood := fun {t m} h => by
      obtain ⟨L, stood, pre, ownTerm⟩ := inv.leader_stood h
      refine ⟨L, stood, pre.trans (g.ledger t), fun i hi len => ?_⟩
      by_cases hlen : i ≤ (s.ledger t).length
      · rw [sameTerm hlen]; exact ownTerm i hi hlen
      · by_cases ht : t = s.term n
        · subst ht
          rw [longer, List.length_append, List.length_singleton] at len
          have : i = (s.ledger (s.term n)).length + 1 := by omega
          rw [longer, this, termAt_concat, own]
        · rw [other ht] at len; omega
    vacant := fun {t} h => by
      have ht : t ≠ s.term n := by
        rintro rfl
        change s.leader (s.term n) = none at h
        rw [leads] at h
        cases h
      rw [other ht]
      exact inv.vacant h
    leader_log := fun {t m} h hm => by
      by_cases hn : m = n
      · subst hn
        change s.term m = t at hm
        subst hm
        exact logn
      · have ht : t ≠ s.term n := by
          rintro rfl
          exact hn (Option.some.inj (h.symm.trans leads))
        rw [other ht, g.otherLog m hn]
        exact inv.leader_log h hm
    log_matched := fun m => by
      by_cases hm : m = n
      · subst hm
        intro i one len
        rw [logn] at len ⊢
        by_cases hi : i ≤ (s.ledger (s.term m)).length
        · rw [agree hi, sameTerm hi]
          exact (ledger_matched inv _ i one hi).trans (g.ledger _)
        · rw [longer, List.length_append, List.length_singleton] at len
          have last : i = (s.ledger (s.term m)).length + 1 := by omega
          have : termAt tm (s.ledger (s.term m) ++ [e]) _ = tm e := termAt_concat _ e
          rw [longer, last, this, own, longer]
          exact List.take_prefix _ _
      · rw [g.otherLog m hm]
        exact matched_grows g (inv.log_matched m)
    log_term := fun m i => by
      by_cases hm : m = n
      · subst hm
        rw [logn]
        change termAt tm _ i ≤ s.term m
        by_cases hi : i ≤ (s.ledger (s.term m)).length
        · rw [sameTerm hi]; exact ledger_term inv
        · by_cases last : i = (s.ledger (s.term m)).length + 1
          · rw [longer, last, termAt_concat, own]
          · rw [longer, termAt_beyond (by simp; omega)]; exact Nat.zero_le _
      · rw [g.otherLog m hm]
        exact inv.log_term m i
    acked_le := fun m t => (inv.acked_le m t).trans (g.ledger t).length_le
    held := fun {t c m} ch ownTerm one done => by
      have len := done.trans (inv.acked_le m t)
      rw [sameTerm len] at ownTerm
      rw [agree len]
      have old := inv.held ch ownTerm one done
      by_cases hm : m = n
      · subst hm
        refine old.trans ?_
        simp [State.append]
      · rw [g.otherLog m hm]; exact old
    current := fun {m t} hm => by
      change ((s.append n e).ledger t).take (s.acked m t) <+: _
      rw [agree (inv.acked_le m t)]
      have old := inv.current hm
      by_cases hn : m = n
      · subst hn
        refine old.trans ?_
        simp [State.append]
      · rw [g.otherLog m hn]; exact old
    elected := fun {t c u m x L} ch ownTerm one done lt voted standing => by
      have len := done.trans (inv.acked_le m t)
      rw [sameTerm len] at ownTerm
      rw [agree len]
      exact inv.elected ch ownTerm one done lt voted standing
    committed := fun {t} h => by
      obtain ⟨len, ownTerm, acks⟩ := inv.committed h
      exact ⟨len.trans (g.ledger t).length_le, (sameTerm len).trans ownTerm, acks⟩ }

theorem inv_accept (inv : Inv Q tm s) {q : Nat} (led : s.leader (s.term n) ≠ none) :
    Inv Q tm (s.accept n q) := by
  have logn : (s.accept n q).log n = adopt (s.ledger (s.term n)) q (s.log n) := by
    simp [State.accept]
  have other {m : N} (h : m ≠ n) : (s.accept n q).log m = s.log m := by
    simp [State.accept, h]
  have adopted : adopt (s.ledger (s.term n)) q (s.log n) = s.log n ∨
      adopt (s.ledger (s.term n)) q (s.log n) = (s.ledger (s.term n)).take q := by
    by_cases h : (s.ledger (s.term n)).take q <+: s.log n
    · exact Or.inl (adopt_of_holds h)
    · exact Or.inr (adopt_of_conflict h)
  exact { inv with
    leader_log := fun {t m} h hm => by
      by_cases hn : m = n
      · subst hn
        change s.term m = t at hm
        subst hm
        have same := inv.leader_log h rfl
        rw [logn, adopt_of_holds (by rw [same]; exact List.take_prefix _ _), same]
        rfl
      · rw [other hn]
        exact inv.leader_log h hm
    log_matched := fun m => by
      by_cases hm : m = n
      · subst hm
        rw [logn]
        rcases adopted with h | h <;> rw [h]
        · exact inv.log_matched m
        · exact matched_take (ledger_matched inv _) q
      · rw [other hm]
        exact inv.log_matched m
    log_term := fun m i => by
      by_cases hm : m = n
      · subst hm
        rw [logn]
        rcases adopted with h | h <;> rw [h]
        · exact inv.log_term m i
        · by_cases hi : i ≤ q
          · rw [termAt_take hi]; exact ledger_term inv
          · rw [termAt_beyond (by rw [List.length_take]; omega)]; exact Nat.zero_le _
      · rw [other hm]
        exact inv.log_term m i
    held := fun {t c m} ch own one done => by
      have old := inv.held ch own one done
      by_cases hm : m = n
      · subst hm
        rw [logn]
        have len := done.trans (inv.acked_le m t)
        have le := inv.acked_term (one.trans done)
        -- the leader of the current term holds every choosable position
        have lead := choosable_ledger inv ch own one le led
        have same := take_eq_of_holds lead len
        change (s.ledger t).take c <+: _
        rw [same] at old ⊢
        exact adopt_keeps old q
      · rw [other hm]; exact old
    current := fun {m t} hm => by
      have old := inv.current hm
      by_cases hn : m = n
      · subst hn
        change s.term m = t at hm
        subst hm
        rw [logn]
        exact adopt_keeps old q
      · rw [other hn]; exact old }

theorem inv_ack (inv : Inv Q tm s) {q : Nat} (bound : q ≤ (s.ledger (s.term n)).length)
    (holds : (s.ledger (s.term n)).take q <+: s.log n) : Inv Q tm (s.ack n q) := by
  have acked {m : N} {t : Nat} : (s.ack n q).acked m t = s.acked m t ∨
      (m = n ∧ t = s.term n ∧ (s.ack n q).acked m t = max (s.acked m t) q) := by
    by_cases h : m = n ∧ t = s.term n
    · exact Or.inr ⟨h.1, h.2, by simp only [State.ack, if_pos h]⟩
    · exact Or.inl (by simp only [State.ack, if_neg h])
  have back {u c : Nat} (h : Choosable Q (s.ack n q) u c) : Choosable Q s u c := by
    have fresh (m : N) (t : Nat) : (s.ack n q).acked m t ≤ s.acked m t ∨ s.term m ≤ t := by
      rcases acked (m := m) (t := t) with h | ⟨rfl, rfl, _⟩
      · exact Or.inl h.le
      · exact Or.inr le_rfl
    have term (m : N) : s.term m ≤ (s.ack n q).term m := le_rfl
    exact choosable_of_grows term fresh h
  exact { inv with
    acked_le := fun m t => by
      rcases acked (m := m) (t := t) with h | ⟨rfl, rfl, h⟩ <;> rw [h]
      · exact inv.acked_le m t
      · exact max_le (inv.acked_le _ _) bound
    acked_term := fun {m t} h => by
      rcases acked (m := m) (t := t) with he | ⟨rfl, rfl, _⟩
      · rw [he] at h; exact inv.acked_term h
      · exact le_rfl
    held := fun {t c m} ch own one done => by
      rcases acked (m := m) (t := t) with he | ⟨rfl, rfl, he⟩
      · rw [he] at done; exact inv.held (back ch) own one done
      · rw [he] at done
        rcases le_max_iff.mp done with old | new
        · exact inv.held (back ch) own one old
        · exact take_pre_of_le holds new
    current := fun {m t} hm => by
      rcases acked (m := m) (t := t) with he | ⟨rfl, rfl, he⟩ <;> rw [he]
      · exact inv.current hm
      · rcases max_choice (s.acked m (s.term m)) q with h | h <;> rw [h]
        · exact inv.current rfl
        · exact holds
    elected := fun {t c u m x L} ch own one done lt voted standing => by
      rcases acked (m := m) (t := t) with he | ⟨rfl, rfl, _⟩
      · rw [he] at done
        exact inv.elected (back ch) own one done lt voted standing
      · have := inv.voted_le voted
        omega
    committed := fun {t} h => by
      obtain ⟨len, own, acks⟩ := inv.committed h
      refine ⟨len, own, Q.mono acks fun v hv => ?_⟩
      rcases acked (m := v) (t := t) with he | ⟨_, _, he⟩ <;> rw [he]
      · exact hv
      · exact le_max_of_le_left hv }

theorem inv_step (inv : Inv Q tm s) (move : Step Q tm n s s') : Inv Q tm s' := by
  cases move with
  | newTerm t later => exact inv_newTerm inv later
  | campaign => exact inv_campaign inv
  | vote c L stood up => exact inv_vote inv stood up
  | elect vacant stood quorum => exact inv_elect inv vacant stood quorum
  | append e leads own => exact inv_append inv leads own
  | accept q led => exact inv_accept inv led
  | ack q bound holds => exact inv_ack inv bound holds
  | commitTo c leads later own quorum => exact inv_commitTo inv own quorum

theorem inv_steps (inv : Inv Q tm s) (moves : Steps Q tm n s s') :
    Inv Q tm s' ∧ Grows n s s' := by
  induction moves with
  | refl => exact ⟨inv, grows_refl n s⟩
  | tail _ move ih => exact ⟨inv_step ih.1 move, ih.2.trans (grows_step ih.1 move)⟩

end Consensus
