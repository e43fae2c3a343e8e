import EdgeKV.RaftStore.Store

/-!
What the effects of the store do to its files. Garbage collection removes the oldest
segments, up to one whose tag is inside the snapshot, and no snapshot that `Load` would
choose.
-/
namespace EdgeKV.RaftStore

open Wal (Segment LogSegment Journal)

variable {ID : Type} {d d' : Disk ID}

/-- The file that is newer than all others. -/
def Newest (snaps : List SnapFile) : Option SnapFile → Prop
  | none => snaps = []
  | some f => f ∈ snaps ∧ ∀ g ∈ snaps, g = f ∨ g.index < f.index

section Newest

variable {snaps : List SnapFile}

theorem mem_snapshotFiles (f : SnapFile) : f ∈ snapshotFiles snaps ↔ f ∈ snaps :=
  List.mem_insertionSort _

/-- The list of files is sorted by index. -/
theorem snapshotFiles_sorted (snaps : List SnapFile) :
    (snapshotFiles snaps).Pairwise (·.index ≤ ·.index) := by
  let r (a b : SnapFile) : Prop :=
    a.index < b.index ∨
      (a.index = b.index ∧ a.path.lastIncludedTerm ≤ b.path.lastIncludedTerm)
  have total : Std.Total r := ⟨fun a b => by simp only [r]; omega⟩
  have trans : IsTrans SnapFile r := ⟨fun a b c => by simp only [r]; omega⟩
  have sorted : (snaps.insertionSort r).Pairwise r := List.pairwise_insertionSort r snaps
  refine sorted.imp fun order => ?_
  rcases order with lt | ⟨eq, -⟩
  · exact lt.le
  · exact eq.le

theorem newest_eq {cur : Option SnapFile} (h : Newest d.snaps cur) : d.newest = cur := by
  cases cur with
  | none => rw [Disk.newest, show d.snaps = [] from h]; rfl
  | some f =>
      obtain ⟨there, others⟩ := h
      have hf := (mem_snapshotFiles f).mpr there
      cases last : d.newest with
      | none =>
          rw [List.getLast?_eq_none_iff.mp last] at hf
          cases hf
      | some g =>
          obtain ⟨init, split⟩ := List.getLast?_eq_some_iff.mp last
          have sorted := snapshotFiles_sorted d.snaps
          have hg : g ∈ d.snaps := (mem_snapshotFiles g).mp (by rw [split]; simp)
          rw [split] at sorted hf
          rcases others g hg with rfl | older
          · rfl
          · rcases List.mem_append.mp hf with earlier | here
            · have order := (List.pairwise_append.mp sorted).2.2 f earlier g (List.mem_singleton.mpr rfl)
              exact absurd older (Nat.not_lt.mpr order)
            · rw [List.mem_singleton.mp here]

/-- A file with an index above all others becomes the newest. -/
theorem newest_rename {f : SnapFile} (above : ∀ g ∈ d.snaps, g.index < f.index) :
    Newest (d.apply (.rename f)).snaps (some f) := by
  refine ⟨List.mem_append_right _ (List.mem_singleton.mpr rfl), fun g hg => ?_⟩
  rcases List.mem_append.mp hg with old | new
  · exact Or.inr (above g (List.mem_filter.mp old).1)
  · exact Or.inl (List.mem_singleton.mp new)

theorem newest_subset {cur : Option SnapFile} (h : Newest d.snaps cur)
    (subset : d'.snaps ⊆ d.snaps) (kept : ∀ f, cur = some f → f ∈ d'.snaps) :
    Newest d'.snaps cur := by
  cases cur with
  | none =>
      rw [show d.snaps = [] from h] at subset
      exact List.subset_nil.mp subset
  | some f => exact ⟨kept f rfl, fun g hg => h.2 g (subset hg)⟩

end Newest

section Collection

/-- The segments from `seq` on follow those before it. -/
theorem filter_seq_split {segs : List (LogSegment (Rec ID))}
    (ordered : segs.Pairwise (·.segment.seq < ·.segment.seq)) (seq : Nat) :
    segs = segs.filter (·.segment.seq < seq) ++ segs.filter (seq ≤ ·.segment.seq) := by
  induction segs with
  | nil => rfl
  | cons s segs ih =>
      obtain ⟨first, others⟩ := List.pairwise_cons.mp ordered
      by_cases old : s.segment.seq < seq
      · rw [List.filter_cons_of_pos (by simpa using old),
          List.filter_cons_of_neg (by simpa using old), List.cons_append, ← ih others]
      · have young : ∀ x ∈ s :: segs, seq ≤ x.segment.seq := by
          intro x hx
          rcases List.mem_cons.mp hx with rfl | later
          · exact Nat.not_lt.mp old
          · exact (Nat.not_lt.mp old).trans (first x later).le
        have none : (s :: segs).filter (·.segment.seq < seq) = [] :=
          List.filter_eq_nil_iff.mpr fun x hx => by simpa using young x hx
        have all : (s :: segs).filter (seq ≤ ·.segment.seq) = s :: segs :=
          List.filter_eq_self.mpr fun x hx => by simpa using young x hx
        rw [none, all, List.nil_append]

/-- The segments before `seq` in a log with growing numbers are its oldest ones. -/
theorem filter_seq_oldest {segs : List (LogSegment (Rec ID))}
    (ordered : segs.Pairwise (·.segment.seq < ·.segment.seq)) (seq : Nat) :
    segs.filter (·.segment.seq < seq) <+: segs :=
  ⟨_, (filter_seq_split ordered seq).symm⟩

/-- The loop goes past a number only for a segment that is inside the snapshot, with all
segments up to it. -/
theorem removeBefore_passed {index n : Nat} {segs : List Segment}
    (ordered : segs.Pairwise (·.seq < ·.seq)) {seq : Nat} (passed : n < removeBefore index seq segs) :
    n < seq ∨ ∃ t ∈ segs, n < t.seq ∧ ∀ u ∈ segs, u.seq ≤ t.seq → u.tag ≤ index + 1 := by
  induction segs generalizing seq with
  | nil => exact Or.inl passed
  | cons s segs ih =>
      obtain ⟨first, others⟩ := List.pairwise_cons.mp ordered
      rw [removeBefore] at passed
      split at passed
      · exact Or.inl passed
      next inside =>
        rcases ih others passed with here | ⟨t, ht, after, all⟩
        · by_cases old : n < seq
          · exact Or.inl old
          · refine Or.inr ⟨s, List.mem_cons_self, by omega, fun u hu le => ?_⟩
            rcases List.mem_cons.mp hu with rfl | later
            · omega
            · have := first u later
              omega
        · refine Or.inr ⟨t, List.mem_cons_of_mem s ht, after, fun u hu le => ?_⟩
          rcases List.mem_cons.mp hu with rfl | later
          · omega
          · exact all u later le

@[simp] theorem applyAll_nil : d.applyAll [] = d := rfl

@[simp] theorem applyAll_cons (e : Effect ID) (effects : List (Effect ID)) :
    d.applyAll (e :: effects) = (d.apply e).applyAll effects := rfl

theorem applyAll_append (a b : List (Effect ID)) :
    d.applyAll (a ++ b) = (d.applyAll a).applyAll b := List.foldl_append

/-- What holds at every point of some effects holds after them. -/
theorem applyAll_whole {P : Disk ID → Prop} {effects : List (Effect ID)}
    (cut : ∀ k, P (d.applyAll (effects.take k))) : P (d.applyAll effects) := by
  have whole := cut effects.length
  rw [List.take_length] at whole
  exact whole

theorem applyAll_append_records (d : Disk ID) (recs : List (Rec ID)) :
    d.applyAll (recs.map .append) = { d with wal := d.wal.append recs } := by
  induction recs generalizing d with
  | nil => simp [Journal.append]
  | cons rec recs ih =>
      rw [List.map_cons, applyAll_cons, ih]
      simp [Disk.apply, Journal.append]

/-- Removing the oldest segments one by one. -/
theorem applyAll_remove {old rest : List (LogSegment (Rec ID))}
    (ordered : d.wal.closed.Pairwise (·.segment.seq < ·.segment.seq))
    (split : d.wal.closed = old ++ rest) :
    d.applyAll (old.map fun s => .remove s.segment.seq) =
      { d with wal := { d.wal with closed := rest } } := by
  induction old generalizing d with
  | nil =>
      rw [List.nil_append] at split
      rw [← split]
      rfl
  | cons s old ih =>
      rw [split] at ordered
      obtain ⟨first, others⟩ := List.pairwise_cons.mp ordered
      have left : (d.apply (.remove s.segment.seq)).wal.closed = old ++ rest := by
        rw [Disk.apply, split, List.cons_append, List.filter_cons_of_neg (by simp)]
        refine List.filter_eq_self.mpr fun x hx => ?_
        have := first x hx
        simp only [ne_eq, decide_eq_true_eq]
        omega
      rw [List.map_cons, applyAll_cons, ih (left ▸ others) left]
      rfl

theorem applyAll_unlink (files : List SnapFile) :
    d.applyAll (files.map fun f => .unlink f.path) =
      { d with snaps := d.snaps.filter (·.path ∉ files.map (·.path)) } := by
  induction files generalizing d with
  | nil => simp
  | cons f files ih =>
      rw [List.map_cons, applyAll_cons, ih]
      simp [Disk.apply, List.filter_filter, Bool.and_comm]

/-- What a garbage collection for the snapshot `m` has done to the files, at its end or in
the middle of it. -/
structure Collected (m : StoredMeta) (d d' : Disk ID) : Prop where
  wal : ∃ old rest, d.wal.closed = old ++ rest ∧ d'.wal = { d.wal with closed := rest } ∧
    ((∀ s ∈ old, s.segment.seq < m.minWalSegment) ∨
      ∀ s ∈ d'.wal.segments.head?, s.segment.tag ≤ m.lastIncludedIndex + 1)
  subset : d'.snaps ⊆ d.snaps
  kept : ∀ f ∈ d.snaps, f.path = m.toSnapshotMeta ∨ m.lastIncludedIndex < f.index → f ∈ d'.snaps

theorem closed_ordered (ordered : d.wal.Ordered) :
    d.wal.closed.Pairwise (·.segment.seq < ·.segment.seq) :=
  (List.pairwise_append.mp ordered).1

/-- The oldest segment that is left once others are gone is inside the snapshot, unless
only segments were removed that it makes invalid. -/
theorem removed_boundary {m : StoredMeta} (ordered : d.wal.Ordered)
    {old rest : List (LogSegment (Rec ID))} (split : d.wal.closed = old ++ rest)
    (removed : ∀ s ∈ old, s.segment.seq <
      removeBefore m.lastIncludedIndex m.minWalSegment (d.wal.segments.map (·.segment)).tail) :
    (∀ s ∈ old, s.segment.seq < m.minWalSegment) ∨
      ∀ s ∈ (rest ++ [d.wal.active]).head?, s.segment.tag ≤ m.lastIncludedIndex + 1 := by
  rcases List.eq_nil_or_concat old with rfl | ⟨init, x, rfl⟩
  · exact Or.inl (by simp)
  · rw [List.concat_eq_append] at *
    have all : d.wal.segments = init ++ x :: (rest ++ [d.wal.active]) := by
      rw [Journal.segments, split]
      simp
    rw [Journal.Ordered, all] at ordered
    obtain ⟨-, after, before⟩ := List.pairwise_append.mp ordered
    obtain ⟨next, later⟩ := List.pairwise_cons.mp after
    have names : (d.wal.segments.map (·.segment)).tail.Pairwise (·.seq < ·.seq) := by
      refine List.Pairwise.sublist (List.tail_sublist _) (List.pairwise_map.mpr ?_)
      rw [all]
      exact ordered
    rcases removeBefore_passed names (removed x (by simp)) with invalid | ⟨t, ht, past, inside⟩
    · refine Or.inl fun s hs => ?_
      rcases List.mem_append.mp hs with earlier | here
      · exact (before s earlier x List.mem_cons_self).trans invalid
      · rw [List.mem_singleton.mp here]
        exact invalid
    · refine Or.inr fun s hs => inside s.segment ?_ ?_
      · have there : s ∈ rest ++ [d.wal.active] := List.mem_of_head? hs
        rw [all, ← List.map_tail]
        refine List.mem_map_of_mem ?_
        cases init with
        | nil => exact there
        | cons y init => exact List.mem_append_right _ (List.mem_cons_of_mem x there)
      · -- `t` is past `x`, so it is `s` or comes after it
        obtain ⟨u, hu, rfl⟩ := List.mem_map.mp (List.mem_of_mem_tail ht)
        obtain ⟨more, follows⟩ := List.head?_eq_some_iff.mp hs
        rw [follows] at later
        rw [all, follows] at hu
        rcases List.mem_append.mp hu with early | late
        · have := before u early x List.mem_cons_self
          omega
        · rcases List.mem_cons.mp late with rfl | late
          · omega
          · rcases List.mem_cons.mp late with rfl | late
            · exact Nat.le_refl _
            · exact ((List.pairwise_cons.mp later).1 u late).le

theorem gcLocked_collected (ordered : d.wal.Ordered) (m : StoredMeta) (k : Nat) :
    Collected m d (d.applyAll ((d.gcLocked (some m)).take k)) := by
  have sorted := closed_ordered ordered
  rw [Disk.gcLocked]
  generalize bound : removeBefore m.lastIncludedIndex m.minWalSegment
    (d.wal.segments.map (·.segment)).tail = seq
  rw [List.take_append, List.length_map, ← List.map_take, ← List.map_take]
  generalize removals : (d.wal.closed.filter (·.segment.seq < seq)).take k = old
  generalize k - (d.wal.closed.filter (·.segment.seq < seq)).length = n
  have oldest : old <+: d.wal.closed := by
    rw [← removals]
    exact (List.take_prefix _ _).trans (filter_seq_oldest sorted seq)
  obtain ⟨rest, split⟩ := oldest
  rw [applyAll_append, applyAll_remove sorted split.symm, applyAll_unlink]
  refine ⟨⟨old, rest, split.symm, rfl, ?_⟩, fun f hf => (List.mem_filter.mp hf).1, fun f hf current => ?_⟩
  · refine removed_boundary ordered split.symm fun s hs => ?_
    rw [bound]
    rw [← removals] at hs
    simpa using (List.mem_filter.mp (List.mem_of_mem_take hs)).2
  · refine List.mem_filter.mpr ⟨hf, ?_⟩
    simp only [decide_eq_true_eq]
    intro listed
    obtain ⟨g, hg, same⟩ := List.mem_map.mp listed
    have stale := (List.mem_filter.mp (List.mem_of_mem_take hg)).2
    simp only [decide_eq_true_eq] at stale
    rcases current with eq | newer
    · exact stale.1 (same.trans eq)
    · have index : g.index = f.index := congrArg SnapshotMeta.lastIncludedIndex same
      omega

end Collection

end EdgeKV.RaftStore
