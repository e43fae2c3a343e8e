import EdgeKV.Raft.Compaction
import EdgeKV.Raft.Scans

/-!
Compaction of the log is transparent for every sequence of calls. The log is compared with one
that takes the same calls and is never compacted; a `reset` leaves that one with an opaque
beginning, of which only the last index and term are known.
-/
namespace EdgeKV

/-- A log that is never compacted: all entries after an opaque beginning. -/
structure FullLog where
  base : Nat := 0
  baseTerm : Nat := 0
  entries : List Entry := []
  deriving DecidableEq, Repr

namespace FullLog

variable (f : FullLog)

def lastIndex : Nat := f.base + f.entries.length

def lastTerm : Nat := (f.entries.getLast?.map Entry.term).getD f.baseTerm

def entry (i : Nat) : Option Entry := if f.base < i then f.entries[i - f.base - 1]? else none

/-- The term at an index, also at the last one of the opaque beginning. -/
def term (i : Nat) : Option Nat :=
  if i = f.base then some f.baseTerm else (f.entry i).map Entry.term

def append (es : List Entry) : FullLog := { f with entries := f.entries ++ es }

def truncateFrom (i : Nat) : FullLog := { f with entries := f.entries.take (i - f.base - 1) }

def reset (i t : Nat) : FullLog := { base := i, baseTerm := t }

def Sorted : Prop := f.entries.Pairwise (·.term ≤ ·.term)

end FullLog

/-- The logs after some calls, none of which has panicked. A compaction is called with the term
of the entry at its index; inside the opaque beginning there is none to compare with. -/
inductive Calls : RaftLog → FullLog → Prop
  | empty : Calls {} {}
  | append {l l' : RaftLog} {f : FullLog} {es : List Entry} (h : Calls l f)
      (done : l.append es = some l') : Calls l' (f.append es)
  | truncateFrom {l l' : RaftLog} {f : FullLog} {i : Nat} (h : Calls l f)
      (done : l.truncateFrom i = some l') : Calls l' (f.truncateFrom i)
  | compactTo {l : RaftLog} {f : FullLog} {i t : Nat} (h : Calls l f) (inside : i ≤ f.lastIndex)
      (known : f.term i = some t ∨ i < f.base) : Calls (l.compactTo i t) f
  | reset {l : RaftLog} {f : FullLog} (h : Calls l f) (i t : Nat) : Calls (.reset i t) (.reset i t)

/-- The log is the other one, with the entries up to its snapshot index dropped. -/
structure Agrees (l : RaftLog) (f : FullLog) : Prop where
  base_le : f.base ≤ l.snapIndex
  le_last : l.snapIndex ≤ f.lastIndex
  snapTerm : f.term l.snapIndex = some l.snapTerm
  entries : l.entries = f.entries.drop (l.snapIndex - f.base)
  numbered : ∀ k e, f.entries[k]? = some e → e.index = f.base + k + 1

/-- The term at the last index of some entries after a beginning. -/
theorem term_lastIndex (es : List Entry) (base t : Nat) :
    (if base + es.length = base then some t else es[es.length - 1]?.map Entry.term) =
      some ((es.getLast?.map Entry.term).getD t) := by
  rcases List.eq_nil_or_concat es with rfl | ⟨init, last, rfl⟩
  · exact if_pos rfl
  · rw [if_neg (by simp)]
    simp

theorem RaftLog.term_last (l : RaftLog) : l.term l.lastIndex = some l.lastTerm := by
  rw [RaftLog.lastTerm, ← term_lastIndex l.entries l.snapIndex, RaftLog.term, RaftLog.lastIndex]
  split
  · rfl
  · rw [if_neg (by omega), Nat.add_sub_cancel_left]

theorem FullLog.term_last (f : FullLog) : f.term f.lastIndex = some f.lastTerm := by
  rw [FullLog.lastTerm, ← term_lastIndex f.entries f.base, FullLog.term, FullLog.lastIndex]
  split
  · rfl
  · rw [FullLog.entry, if_pos (by omega), Nat.add_sub_cancel_left]

section Readings

variable {l : RaftLog} {f : FullLog} (h : Agrees l f)
include h

theorem agrees_lastIndex : l.lastIndex = f.lastIndex := by
  have base := h.base_le
  have last := h.le_last
  rw [FullLog.lastIndex] at last ⊢
  rw [RaftLog.lastIndex, h.entries, List.length_drop]
  omega

theorem agrees_entry {i : Nat} (above : l.snapIndex < i) :
    l.entries[i - l.snapIndex - 1]? = f.entry i := by
  have base := h.base_le
  rw [FullLog.entry, if_pos (by omega), h.entries, List.getElem?_drop]
  congr 1
  omega

theorem agrees_term {i : Nat} (above : l.snapIndex ≤ i) : l.term i = f.term i := by
  rcases Nat.eq_or_lt_of_le above with rfl | above
  · rw [h.snapTerm, RaftLog.term, if_pos rfl]
  · have base := h.base_le
    rw [RaftLog.term_above above, agrees_entry h above, FullLog.term, if_neg (by omega)]

theorem agrees_lastTerm : l.lastTerm = f.lastTerm := by
  have below : l.snapIndex ≤ l.lastIndex := Nat.le_add_right _ _
  have same := agrees_term h below
  rw [RaftLog.term_last, agrees_lastIndex h, FullLog.term_last] at same
  exact Option.some.inj same

theorem agrees_slice {lo hi : Nat} (above : l.snapIndex < lo) (ordered : lo ≤ hi)
    (below : hi ≤ l.lastIndex) :
    ∃ es, l.slice lo hi = some es ∧ es.length = hi - lo + 1 ∧
      ∀ k, k ≤ hi - lo → es[k]? = f.entry (lo + k) := by
  refine ⟨(l.entries.drop (lo - l.snapIndex - 1)).take (hi - lo + 1), ?_, ?_, ?_⟩
  · rw [RaftLog.slice, if_neg (by omega), if_neg (by omega)]
  · rw [List.length_take, List.length_drop]
    rw [RaftLog.lastIndex] at below
    omega
  · intro k within
    rw [List.getElem?_take_of_lt (by omega), List.getElem?_drop, ← agrees_entry h (by omega)]
    congr 1
    omega

end Readings

section Steps

variable {l l' : RaftLog} {f : FullLog} {i t : Nat}

/-- The term at an index depends on the entry there and on the opaque beginning. -/
theorem FullLog.term_congr (f f' : FullLog) (base : f'.base = f.base)
    (baseTerm : f'.baseTerm = f.baseTerm)
    (same : f.base < i → f'.entries[i - f.base - 1]? = f.entries[i - f.base - 1]?) :
    f'.term i = f.term i := by
  rw [FullLog.term, FullLog.term, FullLog.entry, FullLog.entry, base, baseTerm]
  by_cases above : f.base < i
  · rw [if_pos above, if_pos above, same above]
  · rw [if_neg above, if_neg above]

theorem FullLog.term_append (es : List Entry) (within : i ≤ f.lastIndex) :
    (f.append es).term i = f.term i := by
  refine FullLog.term_congr f _ rfl rfl fun above => ?_
  rw [FullLog.lastIndex] at within
  exact List.getElem?_append_left (by omega)

theorem FullLog.term_truncate {j : Nat} (below : i < j) : (f.truncateFrom j).term i = f.term i := by
  refine FullLog.term_congr f _ rfl rfl fun above => ?_
  exact List.getElem?_take_of_lt (by omega)

theorem agrees_concat (h : Agrees l f) {e : Entry} (index : e.index = l.lastIndex + 1) :
    Agrees { l with entries := l.entries ++ [e] } (f.append [e]) := by
  have base := h.base_le
  have last := h.le_last
  have full : f.lastIndex = f.base + f.entries.length := rfl
  have drops : l.snapIndex - f.base ≤ f.entries.length := by omega
  refine ⟨base, ?_, ?_, ?_, ?_⟩
  · refine Nat.le_trans last ?_
    simp [FullLog.lastIndex, FullLog.append]
  · exact (FullLog.term_append [e] last).trans h.snapTerm
  · change l.entries ++ [e] = (f.entries ++ [e]).drop (l.snapIndex - f.base)
    rw [h.entries, List.drop_append_of_le_length drops]
  · intro k x there
    change (f.entries ++ [e])[k]? = some x at there
    change x.index = f.base + k + 1
    rcases Nat.lt_or_ge k f.entries.length with old | new
    · rw [List.getElem?_append_left old] at there
      exact h.numbered k x there
    · have at_end : k = f.entries.length := by
        have within := (List.getElem?_eq_some_iff.mp there).1
        rw [List.length_append, List.length_singleton] at within
        omega
      rw [at_end, List.getElem?_concat_length] at there
      cases there
      rw [index, agrees_lastIndex h, full, at_end]

theorem agrees_append {es : List Entry} (h : Agrees l f) (done : l.append es = some l') :
    Agrees l' (f.append es) := by
  induction es generalizing l f with
  | nil =>
      cases done
      rwa [FullLog.append, List.append_nil]
  | cons e es ih =>
      rw [RaftLog.append] at done
      split at done
      next index =>
        have parts : f.append (e :: es) = (f.append [e]).append es := by simp [FullLog.append]
        rw [parts]
        exact ih (agrees_concat h index) done
      · cases done

theorem agrees_truncate (h : Agrees l f) (done : l.truncateFrom i = some l') :
    Agrees l' (f.truncateFrom i) := by
  have base := h.base_le
  have last := h.le_last
  have full : f.lastIndex = f.base + f.entries.length := rfl
  have numbered : ∀ k e, (f.truncateFrom i).entries[k]? = some e → e.index = f.base + k + 1 := by
    intro k e there
    rw [FullLog.truncateFrom, List.getElem?_take] at there
    split at there
    · exact h.numbered k e there
    · cases there
  rw [RaftLog.truncateFrom] at done
  split at done
  · cases done
  next above =>
    have snapTerm : (f.truncateFrom i).term l.snapIndex = some l.snapTerm :=
      (FullLog.term_truncate (Nat.lt_of_not_le above)).trans h.snapTerm
    have le : l.snapIndex ≤ (f.truncateFrom i).lastIndex := by
      simp only [FullLog.lastIndex, FullLog.truncateFrom, List.length_take]
      omega
    split at done
    next beyond =>
      cases done
      rw [agrees_lastIndex h] at beyond
      have whole : f.truncateFrom i = f := by
        rw [FullLog.truncateFrom, List.take_of_length_le (by omega)]
      rw [whole]
      exact h
    · cases done
      refine ⟨base, le, snapTerm, ?_, numbered⟩
      change l.entries.take _ = (f.entries.take (i - f.base - 1)).drop (l.snapIndex - f.base)
      rw [h.entries, List.drop_take]
      congr 1
      omega

theorem agrees_compact (h : Agrees l f) (inside : i ≤ f.lastIndex)
    (known : f.term i = some t ∨ i < f.base) : Agrees (l.compactTo i t) f := by
  have base := h.base_le
  have full : f.lastIndex = f.base + f.entries.length := rfl
  rw [RaftLog.compactTo]
  split
  · exact h
  next above =>
    have found : f.term i = some t := known.resolve_right (by omega)
    split
    next all =>
      rw [agrees_lastIndex h] at all
      refine ⟨by simp only; omega, inside, found, ?_, h.numbered⟩
      exact (List.drop_of_length_le (by simp only; omega)).symm
    · refine ⟨by simp only; omega, inside, found, ?_, h.numbered⟩
      simp only
      rw [h.entries, List.drop_drop]
      congr 1
      omega

theorem calls_agree (h : Calls l f) : Agrees l f := by
  induction h with
  | empty => exact ⟨Nat.le_refl _, Nat.le_refl _, rfl, rfl, nofun⟩
  | append _ done ih => exact agrees_append ih done
  | truncateFrom _ done ih => exact agrees_truncate ih done
  | compactTo _ inside known ih => exact agrees_compact ih inside known
  | reset _ i t => exact ⟨Nat.le_refl _, Nat.le_refl _, if_pos rfl, List.drop_nil.symm, nofun⟩

end Steps

section Terms

variable {l : RaftLog} {f : FullLog} (h : Agrees l f)
include h

theorem agrees_sorted (sorted : f.Sorted) : l.Sorted := by
  rw [RaftLog.Sorted, h.entries]
  exact List.Pairwise.sublist (List.drop_sublist _ _) sorted

theorem agrees_numbered : l.Numbered := by
  intro k e there
  have base := h.base_le
  rw [h.entries, List.getElem?_drop] at there
  rw [h.numbered _ e there]
  omega

/-- The entries that are left of a term, read from the full log. -/
theorem agrees_retains (t : Nat) :
    {i | l.Retains i t} = {i | l.snapIndex < i ∧ i ≤ l.lastIndex ∧ f.term i = some t} := by
  ext i
  constructor
  · rintro ⟨above, below, found⟩
    exact ⟨above, below, agrees_term h (Nat.le_of_lt above) ▸ found⟩
  · rintro ⟨above, below, found⟩
    exact ⟨above, below, (agrees_term h (Nat.le_of_lt above)).trans found⟩

theorem agrees_known {i : Nat} (above : l.snapIndex ≤ i) (below : i ≤ l.lastIndex) :
    ∃ t, l.term i = some t ∧ f.term i = some t := by
  rcases Nat.eq_or_lt_of_le above with rfl | lt
  · exact ⟨l.snapTerm, if_pos rfl, h.snapTerm⟩
  · obtain ⟨t, -, -, found⟩ := RaftLog.exists_retains lt below
    exact ⟨t, found, (agrees_term h above).symm.trans found⟩

end Terms

theorem RaftLog.term_outside {l : RaftLog} {i : Nat} (outside : i < l.snapIndex ∨ l.lastIndex < i) :
    l.term i = none := by
  have last : l.snapIndex ≤ l.lastIndex := Nat.le_add_right _ _
  rw [RaftLog.term, if_neg (by omega), if_pos outside]

/-- Compaction is transparent. -/
theorem compaction_transparent (l : RaftLog) (f : FullLog) (h : Calls l f) :
    l.lastIndex = f.lastIndex ∧ l.lastTerm = f.lastTerm ∧
    (∀ i, l.snapIndex ≤ i → i ≤ l.lastIndex → ∃ t, l.term i = some t ∧ f.term i = some t) ∧
    (∀ i, i < l.snapIndex ∨ l.lastIndex < i → l.term i = none) ∧
    (∀ lo hi, l.snapIndex < lo → lo ≤ hi → hi ≤ l.lastIndex →
      ∃ es, l.slice lo hi = some es ∧ es.length = hi - lo + 1 ∧
        ∀ k, k ≤ hi - lo → es[k]? = f.entry (lo + k)) ∧
    (f.Sorted →
      (∀ t start, l.snapIndex < start → start ≤ l.lastIndex → f.term start = some t →
        IsLeast {i | l.snapIndex < i ∧ i ≤ l.lastIndex ∧ f.term i = some t}
          (l.firstIndexOfTerm t start)) ∧
      ∀ t,
        IsGreatest {i | l.snapIndex < i ∧ i ≤ l.lastIndex ∧ f.term i = some t}
          (l.lastIndexOfTerm t) ∨
        ((∀ i, l.snapIndex < i → i ≤ l.lastIndex → f.term i ≠ some t) ∧
          l.lastIndexOfTerm t = 0)) := by
  have agrees := calls_agree h
  refine ⟨agrees_lastIndex agrees, agrees_lastTerm agrees, fun i => agrees_known agrees,
    fun i => RaftLog.term_outside, fun lo hi => agrees_slice agrees, fun sorted => ⟨?_, ?_⟩⟩
  · intro t start above below found
    rw [← agrees_retains agrees]
    refine RaftLog.firstIndexOfTerm_least (agrees_sorted agrees sorted) ⟨above, below, ?_⟩
    exact (agrees_term agrees (Nat.le_of_lt above)).trans found
  · intro t
    rw [← agrees_retains agrees]
    refine (RaftLog.lastIndexOfTerm_greatest (agrees_sorted agrees sorted)
      (agrees_numbered agrees) t).imp_right ?_
    rintro ⟨absent, zero⟩
    refine ⟨fun i above below found => absent i ⟨above, below, ?_⟩, zero⟩
    exact (agrees_term agrees (Nat.le_of_lt above)).trans found

/-- Entries without data, of these terms. -/
def emptyEntries (terms : List Nat) : List Entry :=
  terms.zipIdx.map fun (term, k) => { index := k + 1, term, type := .normal, data := [] }

/-- Of four entries in two terms, the first is compacted away and the last truncated. -/
theorem compaction_transparent_window :
    ∃ l f, Calls l f ∧ l.snapIndex = 1 ∧ l.lastIndex = 3 ∧ f.lastIndex = 3 ∧
      IsLeast {i | l.snapIndex < i ∧ i ≤ l.lastIndex ∧ f.term i = some 2} (l.firstIndexOfTerm 2 3) := by
  obtain ⟨l, f, calls, snap, last, sorted, term⟩ : ∃ l f, Calls l f ∧ l.snapIndex = 1 ∧
      l.lastIndex = 3 ∧ f.Sorted ∧ f.term 3 = some 2 := by
    have four : RaftLog.append {} (emptyEntries [1, 1, 2, 2]) = some _ := rfl
    have compacted := (Calls.empty.append four).compactTo (i := 1) (t := 1) (by decide) (Or.inl rfl)
    refine ⟨_, _, compacted.truncateFrom (i := 4) rfl, rfl, rfl, ?_, rfl⟩
    unfold FullLog.Sorted
    decide
  obtain ⟨same, -, -, -, -, scans⟩ := compaction_transparent l f calls
  exact ⟨l, f, calls, snap, last, same ▸ last, (scans sorted).1 2 3 (by omega) (by omega) term⟩

end EdgeKV
