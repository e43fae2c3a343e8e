import EdgeKV.Consensus.Protocol

/-!
The inductive invariant of the replication protocol. `Matched` is log matching
in the form the argument needs: every prefix of a log is a prefix of the ledger
of the term it ends in. `Choosable` is the key to leader completeness: a
position of a term's ledger that a quorum has acknowledged or still could.
It only ever shrinks, so what holds of it at a vote still holds at the election.
-/
namespace Consensus

variable {N E : Type} {Q : Quorums N} {tm : E → Nat}

/-- Every prefix of `L` is a prefix of the ledger of the term it ends in. -/
def Matched (tm : E → Nat) (s : State N E) (L : List E) : Prop :=
  ∀ i, 1 ≤ i → i ≤ L.length → L.take i <+: s.ledger (termAt tm L i)

/-- A quorum has acknowledged position `c` in term `t`, or is not past `t` yet. -/
def Choosable (Q : Quorums N) (s : State N E) (t c : Nat) : Prop :=
  Q.IsQuorum fun v => c ≤ s.acked v t ∨ s.term v ≤ t

structure Inv (Q : Quorums N) (tm : E → Nat) (s : State N E) : Prop where
  voted_le : ∀ {m t c}, s.voted m t c → t ≤ s.term m
  voted_stood : ∀ {m t c}, s.voted m t c → ∃ L, s.cand t c = some L
  cand_le : ∀ {t m L}, s.cand t m = some L → t ≤ s.term m
  cand_matched : ∀ {t m L}, s.cand t m = some L → Matched tm s L
  cand_term : ∀ {t m L}, s.cand t m = some L → ∀ i, termAt tm L i < t
  leader_votes : ∀ {t m}, s.leader t = some m → Q.IsQuorum fun v => s.voted v t m
  leader_stood : ∀ {t m}, s.leader t = some m → ∃ L, s.cand t m = some L ∧ L <+: s.ledger t ∧
    ∀ i, L.length < i → i ≤ (s.ledger t).length → termAt tm (s.ledger t) i = t
  vacant : ∀ {t}, s.leader t = none → s.ledger t = []
  leader_log : ∀ {t m}, s.leader t = some m → s.term m = t → s.log m = s.ledger t
  log_matched : ∀ n, Matched tm s (s.log n)
  log_term : ∀ n i, termAt tm (s.log n) i ≤ s.term n
  acked_le : ∀ n t, s.acked n t ≤ (s.ledger t).length
  acked_term : ∀ {n t}, 1 ≤ s.acked n t → t ≤ s.term n
  held : ∀ {t c n}, Choosable Q s t c → termAt tm (s.ledger t) c = t → 1 ≤ c →
    c ≤ s.acked n t → (s.ledger t).take c <+: s.log n
  current : ∀ {n t}, s.term n = t → (s.ledger t).take (s.acked n t) <+: s.log n
  elected : ∀ {t c u n x L}, Choosable Q s t c → termAt tm (s.ledger t) c = t → 1 ≤ c →
    c ≤ s.acked n t → t < u → s.voted n u x → s.cand u x = some L → (s.ledger t).take c <+: L
  committed : ∀ {t}, 1 ≤ s.commit t → s.commit t ≤ (s.ledger t).length ∧
    termAt tm (s.ledger t) (s.commit t) = t ∧ Q.IsQuorum fun v => s.commit t ≤ s.acked v t

theorem matched_take {s : State N E} {L : List E} (h : Matched tm s L) (k : Nat) :
    Matched tm s (L.take k) := by
  intro i one len
  rw [List.length_take] at len
  rw [termAt_take (by omega), List.take_take, Nat.min_eq_left (by omega)]
  exact h i one (by omega)

theorem matched_grows {n : N} {s s' : State N E} (g : Grows n s s') {L : List E}
    (h : Matched tm s L) : Matched tm s' L :=
  fun i one len => (h i one len).trans (g.ledger _)

theorem matched_ledger {s : State N E} {L : List E} (h : Matched tm s L) {i : Nat} (one : 1 ≤ i)
    (len : i ≤ L.length) : s.ledger (termAt tm L i) ≠ [] := by
  intro empty
  have pre := h i one len
  rw [empty, List.prefix_nil] at pre
  have : (L.take i).length = 0 := by rw [pre]; rfl
  rw [List.length_take] at this
  omega

/-- Every entry of a matched log is in some ledger. -/
theorem matched_mem {s : State N E} {L : List E} (h : Matched tm s L) {e : E} (he : e ∈ L) :
    ∃ t, e ∈ s.ledger t := by
  have pre := h L.length (List.length_pos_of_mem he) le_rfl
  rw [List.take_length] at pre
  exact ⟨_, pre.subset he⟩

/-- Two matched logs with the same term at `i` agree up to `i`. -/
theorem matched_agree {s : State N E} {L M : List E} (hL : Matched tm s L) (hM : Matched tm s M) {i : Nat}
    (iL : i ≤ L.length) (iM : i ≤ M.length) (same : termAt tm L i = termAt tm M i) :
    L.take i = M.take i := by
  rcases Nat.eq_zero_or_pos i with rfl | one
  · rfl
  · have pL := hL i one iL
    have pM := hM i one iM
    rw [same] at pL
    have := take_eq_of_common pL pM (i := i)
      (by rw [List.length_take]; omega) (by rw [List.length_take]; omega)
    simpa only [List.take_take, Nat.min_self] using this

section Consequences

variable {s : State N E} (inv : Inv Q tm s)
include inv

theorem ledger_term {t i : Nat} : termAt tm (s.ledger t) i ≤ t := by
  cases hl : s.leader t with
  | none => rw [inv.vacant hl]; cases i <;> simp [termAt]
  | some m =>
      obtain ⟨L, stood, pre, own⟩ := inv.leader_stood hl
      by_cases hi : i ≤ L.length
      · rw [← termAt_eq_of_pre pre hi]
        exact (inv.cand_term stood i).le
      · by_cases hlen : i ≤ (s.ledger t).length
        · exact (own i (by omega) hlen).le
        · rw [termAt_beyond (by omega)]; exact Nat.zero_le t

theorem ledger_matched (t : Nat) : Matched tm s (s.ledger t) := by
  intro i one len
  cases hl : s.leader t with
  | none => rw [inv.vacant hl] at len; simp at len; omega
  | some m =>
      obtain ⟨L, stood, pre, own⟩ := inv.leader_stood hl
      by_cases hi : i ≤ L.length
      · have same : (s.ledger t).take i = L.take i :=
          take_eq_of_common List.prefix_rfl pre len hi
        rw [same, ← termAt_eq_of_pre pre hi]
        exact inv.cand_matched stood i one hi
      · rw [own i (by omega) len]
        exact List.take_prefix _ _

/-- Along a matched log terms never decrease. -/
theorem matched_mono {L : List E} (h : Matched tm s L) {i j : Nat} (hij : i ≤ j)
    (len : j ≤ L.length) : termAt tm L i ≤ termAt tm L j := by
  rcases Nat.eq_zero_or_pos i with rfl | hi
  · exact Nat.zero_le _
  · have pre := h j (by omega) len
    have read : termAt tm L i = termAt tm (s.ledger (termAt tm L j)) i := by
      rw [← termAt_eq_of_pre pre (by rw [List.length_take]; omega), termAt_take hij]
    rw [read]
    exact ledger_term inv

theorem ledger_leader {t : Nat} (h : s.ledger t ≠ []) : ∃ m, s.leader t = some m := by
  cases hl : s.leader t with
  | none => exact absurd (inv.vacant hl) h
  | some m => exact ⟨m, rfl⟩

/-- Leader completeness for choosable positions: the log a later leader stood
with already starts with them. -/
theorem choosable_stood {t c u : Nat} {x : N} {L : List E} (ch : Choosable Q s t c)
    (own : termAt tm (s.ledger t) c = t) (one : 1 ≤ c) (later : t < u)
    (leads : s.leader u = some x) (stood : s.cand u x = some L) :
    (s.ledger t).take c <+: L := by
  obtain ⟨v, possible, voted⟩ := Q.meets ch (inv.leader_votes leads)
  have hv := inv.voted_le voted
  have done : c ≤ s.acked v t := possible.resolve_right (by omega)
  exact inv.elected ch own one done later voted stood

theorem choosable_ledger {t c u : Nat} (ch : Choosable Q s t c)
    (own : termAt tm (s.ledger t) c = t) (one : 1 ≤ c) (later : t ≤ u)
    (leads : s.leader u ≠ none) : (s.ledger t).take c <+: s.ledger u := by
  rcases Nat.eq_or_lt_of_le later with rfl | lt
  · exact List.take_prefix _ _
  · obtain ⟨x, hx⟩ := Option.ne_none_iff_exists'.mp leads
    obtain ⟨L, stood, pre, _⟩ := inv.leader_stood hx
    exact (choosable_stood inv ch own one lt hx stood).trans pre

/-- A log that is up to date with one that starts with a choosable position
starts with it too. -/
theorem upToDate_holds {t c : Nat} {L M : List E} (ch : Choosable Q s t c)
    (own : termAt tm (s.ledger t) c = t) (one : 1 ≤ c) (len : c ≤ (s.ledger t).length)
    (hL : Matched tm s L) (hM : Matched tm s M) (holds : (s.ledger t).take c <+: M)
    (up : UpToDate tm L M) : (s.ledger t).take c <+: L := by
  have pos : 1 ≤ t := by
    rcases Nat.eq_zero_or_pos t with rfl | h
    · obtain ⟨m, hm⟩ := ledger_leader inv (t := 0) (by
        intro empty; rw [empty] at len; simp at len; omega)
      obtain ⟨K, stood, _⟩ := inv.leader_stood hm
      exact absurd (inv.cand_term stood 0) (by omega)
    · exact h
  have cM : c ≤ M.length := le_length_of_holds holds len
  have termM : termAt tm M c = t := by
    rw [← own, ← termAt_eq_of_pre holds (by rw [List.length_take]; omega), termAt_take le_rfl]
  have lastM : t ≤ lastTerm tm M := by
    rw [← termM]; exact matched_mono inv hM cM le_rfl
  have lastL : t ≤ lastTerm tm L := by
    rcases up with h | ⟨h, _⟩ <;> omega
  have nonempty : 1 ≤ L.length := by
    rcases Nat.eq_zero_or_pos L.length with h | h
    · rw [lastTerm, h, termAt_zero] at lastL; omega
    · exact h
  have whole := hL L.length nonempty le_rfl
  rw [List.take_length] at whole
  change L <+: s.ledger (lastTerm tm L) at whole
  rcases Nat.eq_or_lt_of_le lastL with same | lt
  · -- the same last term: the longer log of that term contains the shorter
    have size : c ≤ L.length := by
      rcases up with h | ⟨_, h⟩
      · omega
      · omega
    rw [← same] at whole
    have eq := take_eq_of_common whole (List.prefix_rfl (l := s.ledger t)) size len
    rw [← eq]
    exact List.take_prefix _ _
  · -- a later last term: its leader already holds the position
    have led := matched_ledger hL nonempty le_rfl
    obtain ⟨x, hx⟩ := ledger_leader inv led
    have later := choosable_ledger inv ch own one lt.le (u := lastTerm tm L) (by
      change s.leader (termAt tm L L.length) ≠ none; rw [hx]; simp)
    have size : c ≤ L.length := by
      by_contra short
      have last : termAt tm (s.ledger (lastTerm tm L)) L.length = lastTerm tm L := by
        rw [← termAt_eq_of_pre whole le_rfl]; rfl
      have early : termAt tm (s.ledger (lastTerm tm L)) L.length ≤ t := by
        rw [← termAt_eq_of_pre later (by rw [List.length_take]; omega),
          termAt_take (by omega)]
        exact ledger_term inv
      omega
    have eq := take_eq_of_common whole later size (by rw [List.length_take]; omega)
    rw [List.take_take, Nat.min_self] at eq
    rw [← eq]
    exact List.take_prefix _ _

end Consequences
end Consensus
