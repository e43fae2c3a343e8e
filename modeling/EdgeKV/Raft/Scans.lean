import EdgeKV.Raft.Log
import Mathlib.Data.List.Induction
import Mathlib.Order.Bounds.Basic

/-!
The two scans for a term. Both stop early, which is right where terms never decrease along the
log: the entries of a term then lie next to each other.
-/
namespace EdgeKV.RaftLog

variable {l : RaftLog} {i j start s t : Nat}

/-- The log still has the entry at the index, and this is its term. -/
def Retains (l : RaftLog) (i t : Nat) : Prop :=
  l.snapIndex < i ∧ i ≤ l.lastIndex ∧ l.term i = some t

/-- Terms never decrease along the log. -/
def Sorted (l : RaftLog) : Prop := l.entries.Pairwise (·.term ≤ ·.term)

/-- The entries carry their indexes. -/
def Numbered (l : RaftLog) : Prop := ∀ k e, l.entries[k]? = some e → e.index = l.snapIndex + k + 1

theorem term_above (above : l.snapIndex < i) :
    l.term i = l.entries[i - l.snapIndex - 1]?.map Entry.term := by
  rw [term, if_neg (by omega)]
  split
  next beyond =>
    rw [List.getElem?_eq_none, Option.map_none]
    have last : l.lastIndex = l.snapIndex + l.entries.length := rfl
    omega
  · rfl

theorem retains_iff : l.Retains i t ↔
    l.snapIndex < i ∧ ∃ e, l.entries[i - l.snapIndex - 1]? = some e ∧ e.term = t := by
  constructor
  · rintro ⟨above, -, found⟩
    rw [term_above above] at found
    obtain ⟨e, there, same⟩ := Option.map_eq_some_iff.mp found
    exact ⟨above, e, there, same⟩
  · rintro ⟨above, e, there, same⟩
    have within := (List.getElem?_eq_some_iff.mp there).1
    have last : l.lastIndex = l.snapIndex + l.entries.length := rfl
    refine ⟨above, by omega, ?_⟩
    rw [term_above above, there, Option.map_some, same]

theorem exists_retains (above : l.snapIndex < i) (below : i ≤ l.lastIndex) :
    ∃ t, l.Retains i t := by
  have within : i - l.snapIndex - 1 < l.entries.length := by
    have last : l.lastIndex = l.snapIndex + l.entries.length := rfl
    omega
  exact ⟨_, retains_iff.mpr ⟨above, _, List.getElem?_eq_getElem within, rfl⟩⟩

theorem retains_mono (sorted : l.Sorted) (le : i ≤ j) (h : l.Retains i s) (h' : l.Retains j t) :
    s ≤ t := by
  obtain ⟨above, e, there, rfl⟩ := retains_iff.mp h
  obtain ⟨-, e', there', rfl⟩ := retains_iff.mp h'
  obtain ⟨within, rfl⟩ := List.getElem?_eq_some_iff.mp there
  obtain ⟨within', rfl⟩ := List.getElem?_eq_some_iff.mp there'
  rcases Nat.eq_or_lt_of_le le with rfl | lt
  · exact Nat.le_refl _
  · exact List.pairwise_iff_getElem.mp sorted _ _ within within' (by omega)

theorem firstIndexOfTerm_le (l : RaftLog) (t start : Nat) : l.firstIndexOfTerm t start ≤ start := by
  induction start with
  | zero => exact Nat.le_refl _
  | succ i ih =>
      rw [firstIndexOfTerm]
      split
      · exact Nat.le_succ_of_le ih
      · exact Nat.le_refl _

/-- What the scan from the end finds is the index of an entry of the term. -/
theorem lastIndexOfTerm_mem (found : l.lastIndexOfTerm t ≠ 0) :
    ∃ e ∈ l.entries, e.term = t ∧ e.index = l.lastIndexOfTerm t := by
  have scan (es : List Entry) (found : lastIndexOfTermIn t es ≠ 0) :
      ∃ e ∈ es, e.term = t ∧ e.index = lastIndexOfTermIn t es := by
    induction es with
    | nil => exact absurd rfl found
    | cons e es ih =>
        rw [lastIndexOfTermIn] at found ⊢
        split
        next same => exact ⟨e, List.mem_cons_self .., same, rfl⟩
        next other =>
          rw [if_neg other] at found
          split
          next lower => exact absurd (if_pos lower) found
          next higher =>
            rw [if_neg higher] at found
            obtain ⟨e', there, same, index⟩ := ih found
            exact ⟨e', List.mem_cons_of_mem _ there, same, index⟩
  obtain ⟨e, there, same, index⟩ := scan _ found
  exact ⟨e, List.mem_reverse.mp there, same, index⟩

/-- The scan backwards stays among entries of the term, and stops where the next one is not. -/
theorem firstIndexOfTerm_run (h : l.Retains start t) :
    l.Retains (l.firstIndexOfTerm t start) t ∧ l.firstIndexOfTerm t start ≤ start ∧
      ¬ l.Retains (l.firstIndexOfTerm t start - 1) t := by
  induction start with
  | zero => exact absurd h.1 (Nat.not_lt_zero _)
  | succ i ih =>
      rw [firstIndexOfTerm]
      split
      next goes_on =>
        obtain ⟨found, same⟩ := exists_retains (l := l) (i := i) (by omega)
          (Nat.le_of_succ_le h.2.1)
        rw [same.2.2, Option.getD_some] at goes_on
        obtain ⟨least, below, stop⟩ := ih (goes_on.2 ▸ same)
        exact ⟨least, Nat.le_succ_of_le below, stop⟩
      next stops =>
        refine ⟨h, Nat.le_refl _, fun before => stops ⟨?_, ?_⟩⟩
        · exact Nat.succ_lt_succ before.1
        · rw [show i + 1 - 1 = i from rfl] at before
          rw [before.2.2, Option.getD_some]

theorem firstIndexOfTerm_least (sorted : l.Sorted) (h : l.Retains start t) :
    IsLeast {i | l.Retains i t} (l.firstIndexOfTerm t start) := by
  obtain ⟨found, below, stop⟩ := firstIndexOfTerm_run h
  refine ⟨found, fun i there => ?_⟩
  by_contra lower
  -- The entry before the one found lies between two of the term, so it has the term too.
  have above : l.snapIndex < l.firstIndexOfTerm t start - 1 := by
    have := there.1
    omega
  obtain ⟨s, before⟩ := exists_retains above (by have := found.2.1; omega)
  have up := retains_mono sorted (by omega) there before
  have down := retains_mono sorted (by omega) before found
  exact stop (Nat.le_antisymm up down ▸ before)

/-- The scan from the end finds the last entry of the term, or there is none. -/
theorem lastIndexOfTermIn_reverse {es : List Entry} (sorted : es.Pairwise (·.term ≤ ·.term))
    (t : Nat) :
    (∃ (k : Nat) (e : Entry), es[k]? = some e ∧ e.term = t ∧
      lastIndexOfTermIn t es.reverse = e.index ∧
      ∀ (j : Nat) (e' : Entry), es[j]? = some e' → e'.term = t → j ≤ k) ∨
    ((∀ e ∈ es, e.term ≠ t) ∧ lastIndexOfTermIn t es.reverse = 0) := by
  induction es using List.reverseRecOn with
  | nil => exact Or.inr ⟨fun e no => (nomatch no), rfl⟩
  | append_singleton es last ih =>
      obtain ⟨before, -, order⟩ := List.pairwise_append.mp sorted
      rw [List.reverse_append, List.reverse_singleton, List.singleton_append, lastIndexOfTermIn]
      split
      next same =>
        refine Or.inl ⟨es.length, last, List.getElem?_concat_length .., same, rfl, ?_⟩
        intro j e there _
        have within := (List.getElem?_eq_some_iff.mp there).1
        rw [List.length_append, List.length_singleton] at within
        omega
      next other =>
        split
        next lower =>
          refine Or.inr ⟨fun e member => ?_, rfl⟩
          rcases List.mem_append.mp member with old | new
          · have le := order e old last (List.mem_singleton_self _)
            omega
          · rw [List.mem_singleton.mp new]
            exact other
        next higher =>
          refine (ih before).imp ?_ ?_
          · rintro ⟨k, e, there, same, result, highest⟩
            have within := (List.getElem?_eq_some_iff.mp there).1
            refine ⟨k, e, ?_, same, result, fun j e' there' same' => ?_⟩
            · rw [List.getElem?_append_left within]
              exact there
            · rcases Nat.lt_or_ge j es.length with lt | ge
              · rw [List.getElem?_append_left lt] at there'
                exact highest j e' there' same'
              · rw [List.getElem?_append_right ge] at there'
                have new := List.mem_singleton.mp (List.mem_of_getElem? there')
                exact absurd (new ▸ same') other
          · rintro ⟨absent, result⟩
            refine ⟨fun e member => ?_, result⟩
            rcases List.mem_append.mp member with old | new
            · exact absent e old
            · rw [List.mem_singleton.mp new]
              exact other

theorem lastIndexOfTerm_greatest (sorted : l.Sorted) (numbered : l.Numbered) (t : Nat) :
    IsGreatest {i | l.Retains i t} (l.lastIndexOfTerm t) ∨
      ((∀ i, ¬ l.Retains i t) ∧ l.lastIndexOfTerm t = 0) := by
  rcases lastIndexOfTermIn_reverse sorted t with
    ⟨k, e, there, same, result, highest⟩ | ⟨absent, result⟩
  · have index : l.lastIndexOfTerm t = l.snapIndex + k + 1 := result.trans (numbered k e there)
    refine Or.inl ⟨?_, fun i retained => ?_⟩
    · rw [index]
      refine retains_iff.mpr ⟨by omega, e, ?_, same⟩
      rw [show l.snapIndex + k + 1 - l.snapIndex - 1 = k by omega]
      exact there
    · obtain ⟨above, e', there', same'⟩ := retains_iff.mp retained
      have le := highest _ e' there' same'
      omega
  · refine Or.inr ⟨fun i retained => ?_, result⟩
    obtain ⟨-, e, there, same⟩ := retains_iff.mp retained
    exact absent e (List.mem_of_getElem? there) same

end EdgeKV.RaftLog
