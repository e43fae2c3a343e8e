import Mathlib.Data.List.Basic
import Mathlib.Data.List.Infix
import Mathlib.Data.List.TakeDrop

/-!
Logs as plain lists, read by 1-based positions. An entry type only has to offer
its term; everything here is about prefixes of such lists and about the
up-to-date comparison between two of them.
-/
namespace Consensus

variable {E : Type} (tm : E → Nat)

/-- The term at position `i`, where position 0 stands before the first entry. -/
def termAt (L : List E) : Nat → Nat
  | 0 => 0
  | i + 1 => (L[i]?.map tm).getD 0

def lastTerm (L : List E) : Nat := termAt tm L L.length

/-- `L` may replace `M` in an election: a later last term, or the same last
term and at least the same length. -/
def UpToDate (L M : List E) : Prop :=
  lastTerm tm M < lastTerm tm L ∨ (lastTerm tm L = lastTerm tm M ∧ M.length ≤ L.length)

/-- A follower taking over the first `q` entries of `P`: it keeps a log that
already starts with them and otherwise replaces its log by them. -/
noncomputable def adopt (P : List E) (q : Nat) (L : List E) : List E := by
  classical exact if P.take q <+: L then L else P.take q

variable {tm}

theorem termAt_zero (L : List E) : termAt tm L 0 = 0 := rfl

theorem termAt_succ (L : List E) (i : Nat) : termAt tm L (i + 1) = (L[i]?.map tm).getD 0 := rfl

theorem termAt_eq_of_pre {L M : List E} (h : L <+: M) {i : Nat} (hi : i ≤ L.length) :
    termAt tm L i = termAt tm M i := by
  obtain ⟨R, rfl⟩ := h
  cases i with
  | zero => rfl
  | succ i => rw [termAt_succ, termAt_succ, List.getElem?_append_left (by omega)]

theorem termAt_take {L : List E} {i k : Nat} (h : i ≤ k) :
    termAt tm (L.take k) i = termAt tm L i := by
  cases i with
  | zero => rfl
  | succ i => rw [termAt_succ, termAt_succ, List.getElem?_take_of_lt (by omega)]

theorem termAt_beyond {L : List E} {i : Nat} (h : L.length < i) : termAt tm L i = 0 := by
  cases i with
  | zero => rfl
  | succ i => rw [termAt_succ, List.getElem?_eq_none (by omega)]; rfl

theorem termAt_concat (L : List E) (e : E) : termAt tm (L ++ [e]) (L.length + 1) = tm e := by
  simp [termAt_succ]

theorem take_pre_of_le {L M : List E} {k q : Nat} (h : M.take q <+: L) (hk : k ≤ q) :
    M.take k <+: L :=
  (List.take_prefix_take_left hk).trans h

/-- Two prefixes of one log that reach position `i` agree up to `i`. -/
theorem take_eq_of_common {L M P : List E} (hL : L <+: P) (hM : M <+: P) {i : Nat}
    (iL : i ≤ L.length) (iM : i ≤ M.length) : L.take i = M.take i := by
  obtain ⟨R, rfl⟩ := hL
  have h : M.take i = (L ++ R).take i := by
    obtain ⟨S, hS⟩ := hM
    rw [← hS, List.take_append_of_le_length iM]
  rw [h, List.take_append_of_le_length iL]

theorem take_eq_of_holds {L M : List E} {i : Nat} (h : M.take i <+: L)
    (hi : i ≤ M.length) : M.take i = L.take i := by
  have hlen : (M.take i).length = i := by rw [List.length_take]; omega
  have := List.prefix_iff_eq_take.mp h
  rwa [hlen] at this

theorem le_length_of_holds {L M : List E} {i : Nat} (h : M.take i <+: L)
    (hi : i ≤ M.length) : i ≤ L.length := by
  have := h.length_le
  rw [List.length_take] at this
  omega

theorem adopt_of_holds {P L : List E} {q : Nat} (h : P.take q <+: L) : adopt P q L = L := by
  simp [adopt, h]

theorem adopt_of_conflict {P L : List E} {q : Nat} (h : ¬ P.take q <+: L) :
    adopt P q L = P.take q := by
  simp [adopt, h]

/-- What `P` and the old log share survives the adoption: either the old log is
kept, or its conflict with `P` lies beyond the shared part. -/
theorem adopt_keeps {P L : List E} {k : Nat} (hP : P.take k <+: L) (q : Nat) :
    P.take k <+: adopt P q L := by
  by_cases h : P.take q <+: L
  · rwa [adopt_of_holds h]
  · rw [adopt_of_conflict h]
    by_cases hq : k ≤ q
    · exact List.take_prefix_take_left hq
    · exact absurd (take_pre_of_le hP (by omega)) h

end Consensus
