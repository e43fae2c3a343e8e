import EdgeKV.Consensus.Preservation

/-!
What the invariant buys: leader completeness and the agreement of all committed
prefixes. `CommittedBy s t P` names the prefixes committed by leaders of terms
up to `t`; it is the form in which the rest of a development keeps hold of a
commit, because it survives every later move.
-/
namespace Consensus

variable {N E : Type} {Q : Quorums N} {tm : E → Nat} {s s' : State N E} {n : N}

/-- `P` is a prefix that a leader of some term up to `t` has committed. -/
def CommittedBy (s : State N E) (t : Nat) (P : List E) : Prop :=
  ∃ u ≤ t, ∃ c ≤ s.commit u, c ≤ (s.ledger u).length ∧ P = (s.ledger u).take c

theorem committedBy_grows (g : Grows n s s') {t : Nat} {P : List E}
    (h : CommittedBy s t P) : CommittedBy s' t P := by
  obtain ⟨u, hu, c, hc, len, rfl⟩ := h
  refine ⟨u, hu, c, hc.trans (g.commit u), len.trans (g.ledger u).length_le, ?_⟩
  exact take_eq_of_common (g.ledger u) List.prefix_rfl len (len.trans (g.ledger u).length_le)

theorem committedBy_mono {t u : Nat} {P : List E} (h : CommittedBy s t P) (le : t ≤ u) :
    CommittedBy s u P := by
  obtain ⟨v, hv, rest⟩ := h
  exact ⟨v, hv.trans le, rest⟩

theorem committedBy_take {t : Nat} {P : List E} (h : CommittedBy s t P) (k : Nat) :
    CommittedBy s t (P.take k) := by
  obtain ⟨u, hu, c, hc, len, rfl⟩ := h
  refine ⟨u, hu, min k c, (min_le_right _ _).trans hc, (min_le_right _ _).trans len, ?_⟩
  rw [List.take_take]

theorem committedBy_nil (s : State N E) (t : Nat) : CommittedBy s t [] :=
  ⟨0, Nat.zero_le _, 0, Nat.zero_le _, Nat.zero_le _, rfl⟩

/-- `s'` comes after `s` in a run, with any nodes moving. -/
abbrev Later : State N E → State N E → Prop := Relation.ReflTransGen fun s s' => ∃ n, Grows n s s'

section Later

variable (later : Later s s')
include later

theorem later_term (m : N) : s.term m ≤ s'.term m := by
  induction later with
  | refl => exact le_rfl
  | tail _ grows ih =>
      obtain ⟨n, grows⟩ := grows
      exact ih.trans (grows.term m)

theorem later_commit (t : Nat) : s.commit t ≤ s'.commit t := by
  induction later with
  | refl => exact le_rfl
  | tail _ grows ih =>
      obtain ⟨n, grows⟩ := grows
      exact ih.trans (grows.commit t)

theorem later_acked (m : N) (t : Nat) : s.acked m t ≤ s'.acked m t := by
  induction later with
  | refl => exact le_rfl
  | tail _ grows ih =>
      obtain ⟨n, grows⟩ := grows
      exact ih.trans (grows.acked m t)

theorem later_ledger (t : Nat) : s.ledger t <+: s'.ledger t := by
  induction later with
  | refl => exact List.prefix_rfl
  | tail _ grows ih =>
      obtain ⟨n, grows⟩ := grows
      exact ih.trans (grows.ledger t)

theorem later_leader {t : Nat} {m : N} (led : s.leader t = some m) : s'.leader t = some m := by
  induction later with
  | refl => exact led
  | tail _ grows ih =>
      obtain ⟨n, grows⟩ := grows
      exact grows.leader ih

theorem later_cand {t : Nat} {m : N} {L : List E} (le : t ≤ s.term m)
    (stood : s.cand t m = some L) : s'.cand t m = some L := by
  induction later with
  | refl => exact stood
  | tail before grows ih =>
      obtain ⟨n, grows⟩ := grows
      exact grows.cand (le.trans (later_term before m)) ih

theorem later_committedBy {t : Nat} {P : List E} (h : CommittedBy s t P) : CommittedBy s' t P := by
  induction later with
  | refl => exact h
  | tail _ grows ih =>
      obtain ⟨n, grows⟩ := grows
      exact committedBy_grows grows ih

end Later

section Results

variable (inv : Inv Q tm s)
include inv

theorem commit_le (t : Nat) : s.commit t ≤ (s.ledger t).length := by
  rcases Nat.eq_zero_or_pos (s.commit t) with h | h
  · rw [h]; exact Nat.zero_le _
  · exact (inv.committed h).1

/-- Leader completeness: the log a later leader stood with starts with every
prefix that an earlier leader has committed, at whatever time. -/
theorem committed_stood {t c u : Nat} {x : N} {L : List E} (hc : c ≤ s.commit t)
    (later : t < u) (leads : s.leader u = some x) (stood : s.cand u x = some L) :
    (s.ledger t).take c <+: L := by
  rcases Nat.eq_zero_or_pos (s.commit t) with h | h
  · have : c = 0 := by omega
    subst this
    exact List.nil_prefix
  · obtain ⟨_, own, acks⟩ := inv.committed h
    have choosable : Choosable Q s t (s.commit t) := Q.mono acks (fun _ => Or.inl)
    exact take_pre_of_le (choosable_stood inv choosable own h later leads stood) hc

theorem committedBy_stood {t u : Nat} {P : List E} {x : N} {L : List E} (h : CommittedBy s t P)
    (later : t < u) (leads : s.leader u = some x) (stood : s.cand u x = some L) : P <+: L := by
  obtain ⟨v, hv, c, hc, -, rfl⟩ := h
  exact committed_stood inv hc (by omega) leads stood

theorem committed_ledger {t : Nat} {P : List E} (h : CommittedBy s t P)
    (leads : s.leader t ≠ none) : P <+: s.ledger t := by
  obtain ⟨u, hu, c, hc, len, rfl⟩ := h
  rcases Nat.eq_or_lt_of_le hu with rfl | lt
  · exact List.take_prefix _ _
  · obtain ⟨x, hx⟩ := Option.ne_none_iff_exists'.mp leads
    obtain ⟨L, stood, pre, _⟩ := inv.leader_stood hx
    exact (committed_stood inv hc lt hx stood).trans pre

theorem take_leader {u c : Nat} (nonempty : (s.ledger u).take c ≠ []) :
    ∃ x, s.leader u = some x := by
  apply ledger_leader inv
  intro empty
  rw [empty, List.take_nil] at nonempty
  exact nonempty rfl

/-- State machine safety: any two committed prefixes are prefixes of one log. -/
theorem committed_comparable {t t' : Nat} {P P' : List E} (h : CommittedBy s t P)
    (h' : CommittedBy s t' P') : P <+: P' ∨ P' <+: P := by
  obtain ⟨u, -, c, hc, len, rfl⟩ := h
  obtain ⟨u', -, c', hc', len', rfl⟩ := h'
  wlog le : u ≤ u' generalizing u u' c c'
  · exact (this u' c' hc' len' u c hc len (by omega)).symm
  by_cases empty : (s.ledger u').take c' = []
  · rw [empty]; exact Or.inr List.nil_prefix
  · obtain ⟨x, hx⟩ := take_leader inv empty
    have lower : (s.ledger u).take c <+: s.ledger u' :=
      committed_ledger inv ⟨u, le, c, hc, len, rfl⟩ (by rw [hx]; simp)
    exact List.prefix_or_prefix_of_prefix lower (List.take_prefix _ _)

theorem committed_agree {t t' : Nat} {P P' : List E} (h : CommittedBy s t P)
    (h' : CommittedBy s t' P') {i : Nat} (hi : i < P.length) (hi' : i < P'.length) :
    P[i]? = P'[i]? := by
  rcases committed_comparable inv h h' with pre | pre
  · obtain ⟨R, rfl⟩ := pre
    exact (List.getElem?_append_left hi).symm
  · obtain ⟨R, rfl⟩ := pre
    exact List.getElem?_append_left hi'

theorem committedBy_matched {t : Nat} {P : List E} (h : CommittedBy s t P) :
    Matched tm s P := by
  obtain ⟨u, _, c, _, _, rfl⟩ := h
  exact matched_take (ledger_matched inv u) c

end Results
end Consensus
