import EdgeKV.Raft.Compaction
import EdgeKV.Raft.Process

/-!
The log a storage keeps, read the way `New` reads it, and what each durable effect
does to it. Entries that a follower takes over from a leader become durable one by
one, so a crash leaves some part of them.
-/
namespace EdgeKV

open Consensus (termAt termAt_succ termAt_take)

variable {ID : Type}

/-- The log that `New` builds from a storage. -/
def MemStorage.log (s : MemStorage ID) : RaftLog :=
  { snapIndex := s.snapIndex, snapTerm := s.snapTerm, entries := s.entries }

theorem new_eq {L : List Entry} {s : MemStorage ID} (h : Holds L s.log) (indexed : Indexed L) :
    Raft.new s = some
      { term := s.hardState.term
        votedFor := s.hardState.votedFor
        rlog := s.log
        commitIndex := s.snapIndex
        lastApplied := s.snapIndex } := by
  have entries : s.entries = L.drop s.snapIndex := h.entries
  have le : s.snapIndex ≤ L.length := h.le
  have appended : (RaftLog.reset s.snapIndex s.snapTerm).append s.entries =
      some { RaftLog.reset s.snapIndex s.snapTerm with
        entries := (RaftLog.reset s.snapIndex s.snapTerm).entries ++ s.entries } := by
    refine append_some fun k e hk => ?_
    rw [entries, List.getElem?_drop] at hk
    have := indexed _ e hk
    simp only [RaftLog.lastIndex, RaftLog.reset, List.length_nil]
    omega
  rw [Raft.new, appended]
  rfl

/-- Everything but the log entries is as it was. -/
structure SameMeta (s s' : MemStorage ID) : Prop where
  hs : s'.hs = s.hs
  snapMeta : s'.snapMeta = s.snapMeta
  snapshot : s'.snapshot = s.snapshot

theorem SameMeta.snapIndex {s s' : MemStorage ID} (h : SameMeta s s') :
    s'.snapIndex = s.snapIndex := by
  rw [MemStorage.snapIndex, MemStorage.snapIndex, h.snapMeta]

theorem SameMeta.trans {s s' s'' : MemStorage ID} (h : SameMeta s s') (h' : SameMeta s' s'') :
    SameMeta s s'' :=
  ⟨h'.hs.trans h.hs, h'.snapMeta.trans h.snapMeta, h'.snapshot.trans h.snapshot⟩

/-- An entry right after position `j` of the stored log replaces what follows. -/
theorem perform_entry {L : List Entry} {s : MemStorage ID} {e : Entry} {j : Nat}
    (h : Holds L s.log) (index : e.index = j + 1) (above : s.snapIndex ≤ j)
    (inside : j ≤ L.length) :
    ∃ s', s.perform (.entry e) = some s' ∧ Holds (L.take j ++ [e]) s'.log ∧ SameMeta s s' := by
  have entries : s.entries = L.drop s.snapIndex := h.entries
  have keep : e.index - s.first = j - s.snapIndex := by rw [first_eq]; omega
  refine ⟨{ s with entries := s.entries.take (e.index - s.first) ++ [e] }, ?_, ?_, ⟨rfl, rfl, rfl⟩⟩
  · rw [MemStorage.perform, MemStorage.appendLocked, if_neg (by rw [first_eq]; omega), if_neg]
    rw [keep, entries, List.length_drop]
    omega
  · refine ⟨?_, ?_, ?_⟩
    · change s.snapIndex ≤ (L.take j ++ [e]).length
      rw [List.length_append, List.length_take]
      omega
    · change s.snapTerm = termAt Entry.term (L.take j ++ [e]) s.snapIndex
      rw [← Consensus.termAt_eq_of_pre (List.prefix_append (L.take j) [e])
        (by rw [List.length_take]; omega), termAt_take above]
      exact h.snapTerm
    · change s.entries.take (e.index - s.first) ++ [e] = (L.take j ++ [e]).drop s.snapIndex
      rw [keep, entries, List.drop_append_of_le_length (by rw [List.length_take]; omega),
        List.drop_take]

/-- Storing the part of `P` after position `j`, up to `j + k`. -/
theorem performAll_fresh {L P : List Entry} {s : MemStorage ID} {j : Nat} (h : Holds L s.log)
    (indexed : Indexed P) (above : s.snapIndex ≤ j) (inside : j ≤ L.length)
    (common : L.take j = P.take j) (k : Nat) (len : j + k ≤ P.length) :
    ∃ s', s.performAll (((P.take (j + k)).drop j).map .entry) = some s' ∧ SameMeta s s' ∧
      Holds (if k = 0 then L else P.take (j + k)) s'.log := by
  induction k with
  | zero =>
      rw [List.drop_eq_nil_of_le (by simp)]
      exact ⟨s, rfl, ⟨rfl, rfl, rfl⟩, h⟩
  | succ k ih =>
      obtain ⟨m, stored, same, held⟩ := ih (by omega)
      have there : j + k < P.length := by omega
      have grow : P.take (j + (k + 1)) = P.take (j + k) ++ [P[j + k]] := by
        rw [← Nat.add_assoc, List.take_add_one, List.getElem?_eq_getElem there]
        rfl
      have split : (P.take (j + (k + 1))).drop j = (P.take (j + k)).drop j ++ [P[j + k]] := by
        rw [grow, List.drop_append_of_le_length (by rw [List.length_take]; omega)]
      have index : P[j + k].index = j + k + 1 :=
        indexed (j + k) _ (List.getElem?_eq_getElem there)
      have size : j + k ≤ (if k = 0 then L else P.take (j + k)).length := by
        split
        · omega
        · rw [List.length_take]; omega
      have low : m.snapIndex ≤ j + k := by rw [same.snapIndex]; omega
      obtain ⟨s', last, held', same'⟩ := perform_entry held index low size
      refine ⟨s', ?_, same.trans same', ?_⟩
      · rw [split, List.map_append, performAll_append, stored]
        simp [MemStorage.performAll, last]
      · rw [if_neg (by omega), grow]
        have cut : (if k = 0 then L else P.take (j + k)).take (j + k) = P.take (j + k) := by
          split
          · next zero => subst zero; exact common
          · rw [List.take_take, Nat.min_self]
        rwa [cut] at held'

/-- A snapshot later than the stored one is not skipped. -/
theorem snapshot_new {s : MemStorage ID} {i : Nat} (above : s.snapIndex < i) :
    s.snapMeta.any (i ≤ ·.lastIncludedIndex) = false := by
  cases hm : s.snapMeta with
  | none => rfl
  | some x =>
      simp only [MemStorage.snapIndex, hm, Option.map_some, Option.getD_some] at above
      simpa using above

theorem snapshot_known {s : MemStorage ID} {i : Nat}
    (known : s.snapMeta.any (i ≤ ·.lastIncludedIndex) = true) : i ≤ s.snapIndex :=
  Nat.le_of_not_lt fun above => by rw [snapshot_new above] at known; cases known

/-- A snapshot inside the stored log that keeps what follows it. -/
theorem saveSnapshot_keeps {L : List Entry} {s : MemStorage ID} {i : Nat} (data : Bytes)
    (h : Holds L s.log) (inside : i ≤ L.length)
    (new : s.snapMeta.any (i ≤ ·.lastIncludedIndex) = false) :
    Holds L (s.saveSnapshot ⟨i, termAt Entry.term L i⟩ data false).log ∧ s.snapIndex ≤ i ∧
      s.saveSnapshot ⟨i, termAt Entry.term L i⟩ data false =
        { s with
          snapMeta := some ⟨i, termAt Entry.term L i⟩
          snapshot := data
          entries := L.drop i } := by
  have entries : s.entries = L.drop s.snapIndex := h.entries
  have above : s.snapIndex ≤ i := by
    cases hm : s.snapMeta with
    | none => simp [MemStorage.snapIndex, hm]
    | some x =>
        rw [hm] at new
        simp only [MemStorage.snapIndex, hm, Option.map_some, Option.getD_some]
        exact Nat.le_of_lt (by simpa using new)
  have saved : s.saveSnapshot ⟨i, termAt Entry.term L i⟩ data false =
      { s with
        snapMeta := some ⟨i, termAt Entry.term L i⟩
        snapshot := data
        entries := L.drop i } := by
    rw [MemStorage.saveSnapshot]
    simp only [new, Bool.false_eq_true, if_false, false_or, first_eq, entries, List.length_drop,
      List.drop_drop]
    congr 1
    split
    · rw [List.drop_eq_nil_of_le (by omega)]
    · congr 1
      omega
  refine ⟨?_, above, saved⟩
  rw [saved]
  exact ⟨inside, rfl, rfl⟩

/-- A snapshot that replaces the whole log. -/
theorem saveSnapshot_discards (L : List Entry) {s : MemStorage ID} (data : Bytes)
    (above : s.snapIndex < L.length) :
    Holds L (s.saveSnapshot ⟨L.length, Consensus.lastTerm Entry.term L⟩ data true).log ∧
      s.saveSnapshot ⟨L.length, Consensus.lastTerm Entry.term L⟩ data true =
        { s with
          snapMeta := some ⟨L.length, Consensus.lastTerm Entry.term L⟩
          snapshot := data
          entries := [] } := by
  have saved : s.saveSnapshot ⟨L.length, Consensus.lastTerm Entry.term L⟩ data true =
      { s with
        snapMeta := some ⟨L.length, Consensus.lastTerm Entry.term L⟩
        snapshot := data
        entries := [] } := by
    rw [MemStorage.saveSnapshot]
    simp only [snapshot_new above, Bool.false_eq_true, if_false, true_or, if_true]
  refine ⟨?_, saved⟩
  rw [saved]
  exact ⟨Nat.le_refl _, rfl, by simp [MemStorage.log, MemStorage.snapIndex]⟩

end EdgeKV
