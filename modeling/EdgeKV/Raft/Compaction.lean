import EdgeKV.Raft.Replication
import EdgeKV.Consensus.Log

/-!
Compaction is transparent. `Holds L l` says that `l` is the full log `L` with the
entries up to its snapshot index dropped; every reading of `l` is then a reading
of `L`, and every operation on `l` is one on `L`. A storage keeps a log in the
same form.
-/
namespace EdgeKV

open Consensus (termAt termAt_succ termAt_take termAt_beyond)

/-- The entry at position `k + 1` of a full log carries index `k + 1`. -/
def Indexed (L : List Entry) : Prop := ∀ k e, L[k]? = some e → e.index = k + 1

theorem indexed_take {L : List Entry} (h : Indexed L) (k : Nat) : Indexed (L.take k) := by
  intro i e he
  rw [List.getElem?_take] at he
  split at he
  · exact h i e he
  · cases he

theorem indexed_pre {L M : List Entry} (h : Indexed M) (pre : L <+: M) : Indexed L := by
  rw [List.prefix_iff_eq_take.mp pre]
  exact indexed_take h _

theorem indexed_concat {L : List Entry} {e : Entry} (h : Indexed L)
    (index : e.index = L.length + 1) : Indexed (L ++ [e]) := by
  intro k x hx
  rcases Nat.lt_trichotomy k L.length with lt | rfl | gt
  · rw [List.getElem?_append_left lt] at hx
    exact h k x hx
  · rw [List.getElem?_concat_length] at hx
    cases hx
    exact index
  · rw [List.getElem?_eq_none (by simp; omega)] at hx
    cases hx

/-- `l` is `L` compacted up to its snapshot index. -/
structure Holds (L : List Entry) (l : RaftLog) : Prop where
  le : l.snapIndex ≤ L.length
  snapTerm : l.snapTerm = termAt Entry.term L l.snapIndex
  entries : l.entries = L.drop l.snapIndex

section Readings

variable {L : List Entry} {l : RaftLog} (h : Holds L l)
include h

theorem holds_lastIndex : l.lastIndex = L.length := by
  rw [RaftLog.lastIndex, h.entries, List.length_drop]
  have := h.le
  omega

theorem holds_lastTerm : l.lastTerm = Consensus.lastTerm Entry.term L := by
  have le := h.le
  rw [RaftLog.lastTerm, h.entries, Consensus.lastTerm]
  rcases Nat.lt_or_ge l.snapIndex L.length with lt | ge
  · obtain ⟨k, hk⟩ : ∃ k, L.length = k + 1 := ⟨L.length - 1, by omega⟩
    rw [List.getLast?_drop, if_neg (by omega), List.getLast?_eq_getElem?, hk, termAt_succ,
      Nat.add_sub_cancel]
    have : k < L.length := by omega
    rw [List.getElem?_eq_getElem this]
    rfl
  · have all : L.length = l.snapIndex := by omega
    rw [List.drop_eq_nil_of_le ge, h.snapTerm, all]
    rfl

theorem holds_term (i : Nat) :
    l.term i = if i < l.snapIndex ∨ L.length < i then none else some (termAt Entry.term L i) := by
  have le := h.le
  rw [RaftLog.term, holds_lastIndex h]
  rcases Nat.lt_trichotomy i l.snapIndex with lt | rfl | gt
  · rw [if_neg (by omega), if_pos (Or.inl lt), if_pos (Or.inl lt)]
  · rw [if_pos rfl, if_neg (by omega), h.snapTerm]
  · rw [if_neg (by omega)]
    by_cases beyond : L.length < i
    · rw [if_pos (Or.inr beyond), if_pos (Or.inr beyond)]
    · rw [if_neg (by omega), if_neg (by omega), h.entries, List.getElem?_drop]
      obtain ⟨k, rfl⟩ : ∃ k, i = k + 1 := ⟨i - 1, by omega⟩
      have pos : l.snapIndex + (k + 1 - l.snapIndex - 1) = k := by omega
      have lt : k < L.length := by omega
      rw [pos, termAt_succ, List.getElem?_eq_getElem lt]
      rfl

theorem holds_term_some {i : Nat} (lo : l.snapIndex ≤ i) (hi : i ≤ L.length) :
    l.term i = some (termAt Entry.term L i) := by
  rw [holds_term h, if_neg (by omega)]

theorem term_holds {i t : Nat} (ht : l.term i = some t) :
    l.snapIndex ≤ i ∧ i ≤ L.length ∧ t = termAt Entry.term L i := by
  rw [holds_term h] at ht
  split at ht
  · cases ht
  · cases ht
    exact ⟨by omega, by omega, rfl⟩

theorem holds_slice {lo hi : Nat} (above : l.snapIndex < lo) (below : hi ≤ L.length) :
    l.slice lo hi = some ((L.drop (lo - 1)).take (hi + 1 - lo)) := by
  rw [RaftLog.slice, holds_lastIndex h]
  split
  · rw [show hi + 1 - lo = 0 by omega, List.take_zero]
  · rw [if_neg (by omega), h.entries, List.drop_drop]
    congr 3 <;> omega

end Readings

theorem append_eq {l l' : RaftLog} {es : List Entry} (h : l.append es = some l') :
    l' = { l with entries := l.entries ++ es } := by
  induction es generalizing l with
  | nil => cases h; simp
  | cons e es ih =>
      rw [RaftLog.append] at h
      split at h
      · rw [ih h]; simp
      · cases h

theorem append_some {l : RaftLog} {es : List Entry}
    (index : ∀ k e, es[k]? = some e → e.index = l.lastIndex + 1 + k) :
    l.append es = some { l with entries := l.entries ++ es } := by
  induction es generalizing l with
  | nil => simp [RaftLog.append]
  | cons e es ih =>
      rw [RaftLog.append, if_pos (index 0 e rfl)]
      rw [ih]
      · simp
      · intro k x hx
        have := index (k + 1) x hx
        simp only [RaftLog.lastIndex, List.length_append, List.length_singleton] at this ⊢
        omega

theorem holds_append {L es : List Entry} {l l' : RaftLog} (h : Holds L l)
    (happ : l.append es = some l') : Holds (L ++ es) l' ∧ l'.snapIndex = l.snapIndex := by
  rw [append_eq happ]
  refine ⟨⟨?_, ?_, ?_⟩, rfl⟩
  · exact h.le.trans (by simp)
  · rw [h.snapTerm]
    exact Consensus.termAt_eq_of_pre (List.prefix_append L es) h.le
  · simp only [h.entries]
    rw [List.drop_append_of_le_length h.le]

theorem holds_truncate {L : List Entry} {l l' : RaftLog} {i : Nat} (h : Holds L l)
    (inside : i ≤ L.length) (hcut : l.truncateFrom i = some l') :
    l.snapIndex < i ∧ Holds (L.take (i - 1)) l' ∧ l'.snapIndex = l.snapIndex := by
  rw [RaftLog.truncateFrom, holds_lastIndex h] at hcut
  split at hcut
  · cases hcut
  next above =>
    rw [if_neg (by omega)] at hcut
    cases hcut
    refine ⟨by omega, ⟨?_, ?_, ?_⟩, rfl⟩
    · rw [List.length_take]
      have := h.le
      simp only
      omega
    · rw [h.snapTerm, termAt_take (by simp only; omega)]
    · simp only [h.entries]
      rw [List.drop_take]
      congr 1
      omega

theorem holds_compact {L : List Entry} {l : RaftLog} {i : Nat} (h : Holds L l)
    (inside : i ≤ L.length) : Holds L (l.compactTo i (termAt Entry.term L i)) := by
  rw [RaftLog.compactTo, holds_lastIndex h]
  split
  · exact h
  · split
    · exact ⟨inside, rfl, (List.drop_eq_nil_of_le (by simp only; omega)).symm⟩
    · refine ⟨inside, rfl, ?_⟩
      simp only [h.entries, List.drop_drop]
      congr 1
      omega

theorem compact_snapIndex (l : RaftLog) (i t : Nat) :
    (l.compactTo i t).snapIndex = max l.snapIndex i := by
  rw [RaftLog.compactTo]
  split
  · omega
  · split <;> simp only [] <;> omega

theorem holds_reset {L : List Entry} : Holds L (RaftLog.reset L.length (Consensus.lastTerm Entry.term L)) :=
  ⟨Nat.le_refl _, rfl, by simp [RaftLog.reset]⟩

section Merge

variable {L P : List Entry} {l : RaftLog}

theorem drop_take_succ {j q : Nat} (lt : j < q) (len : q ≤ P.length) :
    ∃ e, P[j]? = some e ∧ (P.take q).drop j = e :: (P.take q).drop (j + 1) := by
  have inside : j < (P.take q).length := by rw [List.length_take]; omega
  have there : j < P.length := by omega
  refine ⟨P[j], List.getElem?_eq_getElem there, ?_⟩
  rw [List.drop_eq_getElem_cons inside, List.getElem_take]

/-- What the merge loop finds in a log `L` that shares `prev` entries with the
leader's log `P`: either all of `P` up to `q`, or the first position `j` after
which the two part, with `L` cut back to it. -/
theorem mergeEntries_spec (h : Holds L l) (indexed : Indexed P)
    (agree : ∀ i, i ≤ L.length → i ≤ P.length →
      termAt Entry.term L i = termAt Entry.term P i → L.take i = P.take i)
    {prev q : Nat} (above : l.snapIndex ≤ prev) (le : prev ≤ q) (len : q ≤ P.length)
    (inside : prev ≤ L.length) (common : L.take prev = P.take prev) :
    (l.mergeEntries ((P.take q).drop prev) = some (l, []) ∧ L.take q = P.take q ∧ q ≤ L.length) ∨
      ∃ j kept, prev ≤ j ∧ j < q ∧ j ≤ L.length ∧ L.take j = P.take j ∧
        ¬ P.take (j + 1) <+: L ∧ Holds (P.take j) kept ∧ kept.snapIndex = l.snapIndex ∧
        l.mergeEntries ((P.take q).drop prev) = some (kept, (P.take q).drop j) := by
  rcases Nat.eq_or_lt_of_le le with rfl | lt
  · left
    rw [List.drop_eq_nil_of_le (by simp)]
    exact ⟨rfl, common, inside⟩
  · obtain ⟨e, he, cons⟩ := drop_take_succ lt len
    have index := indexed prev e he
    have term : termAt Entry.term P (prev + 1) = e.term := by rw [termAt_succ, he]; rfl
    rw [cons, RaftLog.mergeEntries, index, holds_term h]
    by_cases ends : L.length < prev + 1
    · -- our log ends here: everything from `prev` on is fresh
      right
      have all : L.length = prev := by omega
      have whole : L = P.take prev := by rw [← common, ← all, List.take_length]
      refine ⟨prev, l, Nat.le_refl _, lt, inside, common, ?_, whole ▸ h, rfl, ?_⟩
      · intro pre
        have := pre.length_le
        rw [List.length_take] at this
        omega
      · rw [if_pos (Or.inr ends), cons]
    · rw [if_neg (by omega)]
      by_cases same : termAt Entry.term L (prev + 1) = e.term
      · -- we hold this entry already
        simp only [same, if_true]
        have common' := agree (prev + 1) (by omega) (by omega) (same.trans term.symm)
        rcases mergeEntries_spec h indexed agree (by omega) lt len (by omega) common' with
          found | ⟨j, kept, above', rest⟩
        · exact Or.inl found
        · exact Or.inr ⟨j, kept, by omega, rest⟩
      · right
        simp only [same, if_false]
        have cuts : ∃ kept, l.truncateFrom (prev + 1) = some kept := by
          rw [RaftLog.truncateFrom, if_neg (by omega)]
          split <;> exact ⟨_, rfl⟩
        obtain ⟨kept, cut⟩ := cuts
        obtain ⟨-, held, snap⟩ := holds_truncate h (by omega) cut
        rw [Nat.add_sub_cancel, common] at held
        refine ⟨prev, kept, Nat.le_refl _, lt, inside, common, ?_, held, snap, ?_⟩
        · intro pre
          have held : termAt Entry.term (P.take (prev + 1)) (prev + 1) = _ :=
            Consensus.termAt_eq_of_pre pre (by rw [List.length_take]; omega)
          rw [termAt_take (Nat.le_refl _), term] at held
          exact same held.symm
        · rw [cut, cons]
          rfl
termination_by q - prev

/-- Appending the rest of `P` to a log cut back to position `j` gives `P` up to `q`. -/
theorem append_fresh {j q : Nat} (h : Holds (P.take j) l) (indexed : Indexed P) (le : j ≤ q)
    (len : q ≤ P.length) :
    ∃ l', l.append ((P.take q).drop j) = some l' ∧ Holds (P.take q) l' ∧
      l'.snapIndex = l.snapIndex := by
  have size : l.lastIndex = j := by
    rw [holds_lastIndex h, List.length_take]
    omega
  have appended : l.append ((P.take q).drop j) =
      some { l with entries := l.entries ++ (P.take q).drop j } := by
    refine append_some fun k e hk => ?_
    rw [List.getElem?_drop] at hk
    have := indexed_take indexed q (j + k) e hk
    omega
  obtain ⟨held, snap⟩ := holds_append h appended
  have join : P.take j ++ (P.take q).drop j = P.take q := by
    have whole := List.take_append_drop j (P.take q)
    rwa [List.take_take, Nat.min_eq_left le] at whole
  rw [join] at held
  exact ⟨_, appended, held, snap⟩

end Merge

end EdgeKV
