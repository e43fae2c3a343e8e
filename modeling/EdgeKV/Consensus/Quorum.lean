import Mathlib.Data.List.Nodup
import Mathlib.Data.List.Perm.Subperm
import Mathlib.Data.List.Sort
import Mathlib.Order.Bounds.Basic

/-!
Quorum systems: families of voter sets any two of which share a voter. The
protocol layer only ever uses the two laws below; majorities of a fixed member
list are the instance that the replicated group runs with.
-/
namespace Consensus

/-- A family of voter predicates, closed under enlarging the set of voters, in
which any two members share a voter. -/
structure Quorums (N : Type) where
  IsQuorum : (N → Prop) → Prop
  mono : ∀ {P R : N → Prop}, IsQuorum P → (∀ n, P n → R n) → IsQuorum R
  meets : ∀ {P R : N → Prop}, IsQuorum P → IsQuorum R → ∃ n, P n ∧ R n

variable {N : Type}

/-- More than half of `members`, counted by an explicit list of voters. -/
def IsMajority (members : List N) (P : N → Prop) : Prop :=
  ∃ voters : List N, voters.Nodup ∧ voters ⊆ members ∧
    members.length / 2 + 1 ≤ voters.length ∧ ∀ n ∈ voters, P n

theorem isMajority_mono {members : List N} {P R : N → Prop}
    (h : IsMajority members P) (imp : ∀ n, P n → R n) : IsMajority members R := by
  obtain ⟨voters, distinct, sub, size, all⟩ := h
  exact ⟨voters, distinct, sub, size, fun n hn => imp n (all n hn)⟩

/-- Two majorities cannot be disjoint: together they would name more distinct
members than there are. -/
theorem isMajority_meets {members : List N} {P R : N → Prop}
    (hP : IsMajority members P) (hR : IsMajority members R) : ∃ n, P n ∧ R n := by
  obtain ⟨vs, dv, sv, lv, allP⟩ := hP
  obtain ⟨ws, dw, sw, lw, allR⟩ := hR
  by_contra none
  have disjoint : vs.Disjoint ws := by
    intro n hv hw
    exact none ⟨n, allP n hv, allR n hw⟩
  have distinct : (vs ++ ws).Nodup := List.nodup_append'.mpr ⟨dv, dw, disjoint⟩
  have sub : vs ++ ws ⊆ members := List.append_subset.mpr ⟨sv, sw⟩
  have size := (List.subperm_of_subset distinct sub).length_le
  rw [List.length_append] at size
  omega

theorem isMajority_perm {members members' : List N} {P : N → Prop}
    (h : IsMajority members P) (perm : members.Perm members') : IsMajority members' P := by
  obtain ⟨voters, distinct, sub, size, all⟩ := h
  exact ⟨voters, distinct, fun n hn => perm.subset (sub hn), perm.length_eq ▸ size, all⟩

/-- In a sorted list, `c` is reached by as many values as stand from position `k` on
exactly if the value at that position reaches it. -/
theorem le_countP_iff_of_sorted {l : List Nat} (sorted : l.Pairwise (· ≤ ·)) {k : Nat}
    (inside : k < l.length) (c : Nat) : l.length - k ≤ l.countP (c ≤ ·) ↔ c ≤ l[k] := by
  have ordered := List.pairwise_iff_getElem.mp sorted
  constructor
  · intro enough
    by_contra below
    -- Nothing up to position `k` reaches `c`.
    have lower : (l.take (k + 1)).countP (c ≤ ·) = 0 := by
      rw [List.countP_eq_zero]
      intro x hx
      obtain ⟨i, hi, rfl⟩ := List.mem_iff_getElem.mp hx
      rw [List.length_take] at hi
      rw [List.getElem_take, decide_eq_true_iff]
      rcases Nat.eq_or_lt_of_le (by omega : i ≤ k) with rfl | before
      · exact below
      · have := ordered i k (by omega) inside before
        omega
    have upper := (l.drop (k + 1)).countP_le_length (p := (c ≤ ·))
    rw [← List.take_append_drop (k + 1) l, List.countP_append, lower,
      List.take_append_drop] at enough
    rw [List.length_drop] at upper
    omega
  · intro reached
    have upper : (l.drop k).countP (c ≤ ·) = (l.drop k).length := by
      rw [List.countP_eq_length]
      intro x hx
      obtain ⟨i, hi, rfl⟩ := List.mem_iff_getElem.mp hx
      rw [List.getElem_drop, decide_eq_true_iff]
      rcases Nat.eq_zero_or_pos i with rfl | pos
      · exact reached
      · exact reached.trans (ordered k (k + i) inside _ (by omega))
    rw [← List.length_drop, ← upper]
    exact (List.drop_sublist k l).countP_le

/-- The greatest number that `q` of the values reach stands `q` places from the end, once
they are sorted. -/
theorem isGreatest_sorted {values : List Nat} {q c : Nat} (size : q ≤ values.length)
    (hc : (values.insertionSort (· ≤ ·))[values.length - q]? = some c) :
    IsGreatest {x | q ≤ values.countP (x ≤ ·)} c := by
  have perm : (values.insertionSort (· ≤ ·)).Perm values := List.perm_insertionSort _ _
  obtain ⟨inside, rfl⟩ := List.getElem?_eq_some_iff.mp hc
  have reached (x : Nat) := le_countP_iff_of_sorted
    (values.pairwise_insertionSort (· ≤ ·)) inside x
  simp only [perm.countP_eq, perm.length_eq, Nat.sub_sub_self size] at reached
  exact ⟨(reached _).mpr le_rfl, fun x hx => (reached x).mp hx⟩

/-- The value that a majority reaches: with the members' values sorted, it stands as
far from the end as a majority is large. -/
theorem isMajority_sorted {members : List N} (distinct : members.Nodup) (f : N → Nat) {c : Nat}
    (hc : ((members.map f).insertionSort (· ≤ ·))[members.length - (members.length / 2 + 1)]? =
      some c) : IsMajority members fun n => c ≤ f n := by
  have inside := (List.getElem?_eq_some_iff.mp hc).1
  rw [List.length_insertionSort, List.length_map] at inside
  have greatest : IsGreatest {x | members.length / 2 + 1 ≤ (members.map f).countP (x ≤ ·)} c := by
    refine isGreatest_sorted ?_ ?_
    · rw [List.length_map]
      omega
    · rw [List.length_map]
      exact hc
  have counted : members.length / 2 + 1 ≤ (members.map f).countP (c ≤ ·) := greatest.1
  rw [List.countP_map] at counted
  refine ⟨members.filter fun n => c ≤ f n, distinct.filter _, List.filter_subset_self _, ?_, ?_⟩
  · rw [← List.countP_eq_length_filter]
    exact counted
  · intro n hn
    simpa using (List.mem_filter.mp hn).2

/-- Majorities of a member list form a quorum system. -/
def majority (members : List N) : Quorums N where
  IsQuorum := IsMajority members
  mono := isMajority_mono
  meets := isMajority_meets

end Consensus
