import EdgeKV.Wal.Wal

/-!
What a write-ahead log is for: a journal, which is a list of segments of records. Every
operation of the handle is the operation of the journal of that name, and the directory
holds the journal's records in order.
-/
namespace EdgeKV.Wal

/-- A segment as a list of records, whatever a record is to the reader. -/
structure LogSegment (ρ : Type) where
  segment : Segment
  records : List ρ
  deriving DecidableEq, Repr

def LogSegment.file (checksum : UInt8 → Bytes → UInt32) (s : LogSegment Record) : File :=
  ⟨s.segment, encode checksum s.records⟩

/-- What a log is for: segments of records, the last one open. -/
structure Journal (ρ : Type) where
  closed : List (LogSegment ρ)
  active : LogSegment ρ
  deriving DecidableEq, Repr

namespace Journal

variable {ρ : Type} (j : Journal ρ)

def segments : List (LogSegment ρ) := j.closed ++ [j.active]

def append (recs : List ρ) : Journal ρ :=
  { j with active := { j.active with records := j.active.records ++ recs } }

def rotate (tag : Nat) (head : List ρ) : Journal ρ where
  closed := j.segments
  active := { segment := ⟨j.active.segment.seq + 1, tag⟩, records := head }

def removeBefore (seq : Nat) : Journal ρ :=
  { j with closed := j.closed.filter (seq ≤ ·.segment.seq) }

/-- Sequence numbers grow. -/
def Ordered : Prop := j.segments.Pairwise (·.segment.seq < ·.segment.seq)

/-- The records of the segments from `minSeq` on. -/
def records (minSeq : Nat) : List ρ :=
  (j.segments.filter (minSeq ≤ ·.segment.seq)).flatMap (·.records)

/-- The files of the journal, the last one with `tail` at its end. -/
def files (j : Journal Record) (checksum : UInt8 → Bytes → UInt32) (tail : Bytes) : List File :=
  j.closed.map (·.file checksum) ++
    [⟨j.active.segment, encode checksum j.active.records ++ tail⟩]

end Journal

section Mapping

variable {ρ τ : Type} (f : ρ → τ)

def LogSegment.map (s : LogSegment ρ) : LogSegment τ := ⟨s.segment, s.records.map f⟩

namespace Journal

/-- The journal with each record rewritten. -/
def map (j : Journal ρ) : Journal τ := ⟨j.closed.map (·.map f), j.active.map f⟩

variable (j : Journal ρ)

theorem map_segments : (j.map f).segments = j.segments.map (·.map f) := by
  rw [segments, segments, List.map_append]
  rfl

theorem map_ordered : (j.map f).Ordered ↔ j.Ordered := by
  rw [Ordered, map_segments, List.pairwise_map]
  rfl

theorem map_names : (j.map f).segments.map (·.segment) = j.segments.map (·.segment) := by
  rw [map_segments, List.map_map]
  rfl

theorem map_append (recs : List ρ) : (j.append recs).map f = (j.map f).append (recs.map f) := by
  simp only [append, map, LogSegment.map, List.map_append]

theorem map_rotate (tag : Nat) (head : List ρ) :
    (j.rotate tag head).map f = (j.map f).rotate tag (head.map f) := by
  rw [rotate, rotate, map_segments]
  rfl

theorem map_removeBefore (seq : Nat) :
    (j.removeBefore seq).map f = (j.map f).removeBefore seq := by
  simp only [removeBefore, map, List.filter_map]
  rfl

theorem map_records (minSeq : Nat) : (j.map f).records minSeq = (j.records minSeq).map f := by
  rw [records, records, map_segments, List.filter_map, List.flatMap_map, List.map_flatMap]
  rfl

end Journal
end Mapping

section Order

variable {ρ : Type} {j : Journal ρ}

theorem closed_before (ordered : j.Ordered) {s : LogSegment ρ} (hs : s ∈ j.closed) :
    s.segment.seq < j.active.segment.seq :=
  (List.pairwise_append.mp ordered).2.2 s hs j.active (List.mem_singleton.mpr rfl)

theorem append_ordered (ordered : j.Ordered) (recs : List ρ) : (j.append recs).Ordered := by
  obtain ⟨closed, -, before⟩ := List.pairwise_append.mp ordered
  refine List.pairwise_append.mpr ⟨closed, List.pairwise_singleton _ _, fun s hs x hx => ?_⟩
  rw [List.mem_singleton.mp hx]
  exact before s hs j.active (List.mem_singleton.mpr rfl)

theorem rotate_ordered (ordered : j.Ordered) (tag : Nat) (head : List ρ) :
    (j.rotate tag head).Ordered := by
  refine List.pairwise_append.mpr ⟨ordered, List.pairwise_singleton _ _, fun s hs x hx => ?_⟩
  rw [List.mem_singleton.mp hx]
  refine Nat.lt_succ_of_le ?_
  rcases List.mem_append.mp hs with closed | active
  · exact (closed_before ordered closed).le
  · rw [List.mem_singleton.mp active]

end Order

section Stores

/-- The handle and its directory hold the journal, with `tail` torn after its last record,
and the next write goes to the end of the last file. -/
structure Stores (checksum : UInt8 → Bytes → UInt32) (w : WAL) (j : Journal Record) (tail : Bytes) :
    Prop where
  files : w.files = j.files checksum tail
  segments : w.segments = j.segments.map (·.segment)
  ordered : j.Ordered
  active : w.active = some j.active.segment
  offset : w.offset = (encode checksum j.active.records ++ tail).length
  size : w.size = w.offset

variable {checksum : UInt8 → Bytes → UInt32} {w : WAL} {j : Journal Record} {tail : Bytes}

theorem writeAt_end (buf b : Bytes) : writeAt b.length buf b = b ++ buf := by
  simp [writeAt]

theorem truncate_end (b tail : Bytes) : truncate b.length (b ++ tail) = b := by
  simp [truncate]

/-- Only the file of the last segment is written. -/
theorem updateActive_files (h : Stores checksum w j tail) (f : Bytes → Bytes) :
    w.updateActive f = j.closed.map (·.file checksum) ++
      [⟨j.active.segment, f (encode checksum j.active.records ++ tail)⟩] := by
  have others : ∀ s ∈ j.closed, some s.segment ≠ some j.active.segment := by
    intro s hs same
    have before := closed_before h.ordered hs
    rw [Option.some.inj same] at before
    exact Nat.lt_irrefl _ before
  rw [WAL.updateActive, h.files, h.active, Journal.files, List.map_append, List.map_map,
    List.map_singleton, if_pos rfl]
  congr 1
  refine List.map_congr_left fun s hs => ?_
  exact if_neg (others s hs)

theorem append_stores (h : Stores checksum w j []) (recs : List Record) :
    Stores checksum (w.appendLocked checksum recs) (j.append recs) [] := by
  rw [WAL.appendLocked]
  split
  next empty =>
    subst empty
    simpa [Journal.append] using h
  · have bytes : encode checksum (j.append recs).active.records ++ [] =
        encode checksum j.active.records ++ [] ++ encode checksum recs := by
      simp [Journal.append]
    have offset := h.offset
    have size := h.size
    refine ⟨?_, ?_, ?_, h.active, ?_, ?_⟩
    · rw [Journal.files, bytes]
      simp only [updateActive_files h, offset, writeAt_end]
      rfl
    · rw [h.segments]
      simp [Journal.segments, Journal.append]
    · exact append_ordered h.ordered recs
    · rw [bytes, List.length_append, ← offset]
    · simp only [size]

theorem rotate_stores (h : Stores checksum w j []) (tag : Nat) (head : List Record) :
    ∃ w', w.rotate checksum tag head = some (j.active.segment.seq + 1, w') ∧
      Stores checksum w' (j.rotate tag head) [] := by
  have last : w.segments.getLast? = some j.active.segment := by
    rw [h.segments, Journal.segments, List.map_append, List.map_singleton, List.getLast?_concat]
  have unused : w.files.any (·.segment = ⟨j.active.segment.seq + 1, tag⟩) = false := by
    rw [List.any_eq_false]
    intro x hx
    rw [h.files, Journal.files] at hx
    have seq : x.segment.seq ≤ j.active.segment.seq := by
      rcases List.mem_append.mp hx with closed | active
      · obtain ⟨s, hs, rfl⟩ := List.mem_map.mp closed
        exact (closed_before h.ordered hs).le
      · rw [List.mem_singleton.mp active]
    simp only [decide_eq_true_eq]
    intro same
    rw [same] at seq
    exact Nat.not_succ_le_self _ seq
  have created : Stores checksum
      { w with
        files := w.files ++ [⟨⟨j.active.segment.seq + 1, tag⟩, []⟩]
        segments := w.segments ++ [⟨j.active.segment.seq + 1, tag⟩]
        active := some ⟨j.active.segment.seq + 1, tag⟩
        offset := 0
        size := 0 } (j.rotate tag []) [] := by
    refine ⟨?_, ?_, rotate_ordered h.ordered tag [], rfl, rfl, rfl⟩
    · simp [h.files, Journal.files, Journal.rotate, Journal.segments, LogSegment.file, encode]
    · simp [h.segments, Journal.segments, Journal.rotate]
  refine ⟨_, ?_, append_stores created head⟩
  rw [WAL.rotate, last, Option.bind_some, WAL.createSegment, unused]
  rfl

theorem removeBefore_stores (h : Stores checksum w j tail) (seq : Nat) :
    Stores checksum (w.removeBefore seq) (j.removeBefore seq) tail := by
  have known : w.segments = j.closed.map (·.segment) ++ [j.active.segment] := by
    rw [h.segments, Journal.segments, List.map_append, List.map_singleton]
  -- a file is deleted for its number alone, so the last one stays
  have kept (s : LogSegment Record) (hs : s ∈ j.closed) :
      s.segment ∉ (j.closed.map (·.segment)).filter (·.seq < seq) ↔ seq ≤ s.segment.seq := by
    rw [List.mem_filter, not_and, decide_eq_true_eq, Nat.not_lt]
    exact ⟨fun h => h (List.mem_map_of_mem hs), fun le _ => le⟩
  have last : j.active.segment ∉ (j.closed.map (·.segment)).filter (·.seq < seq) := by
    intro there
    obtain ⟨s, hs, same⟩ := List.mem_map.mp (List.mem_filter.mp there).1
    have before := closed_before h.ordered hs
    rw [same] at before
    exact Nat.lt_irrefl _ before
  refine ⟨?_, ?_, ?_, h.active, h.offset, h.size⟩
  · simp only [WAL.removeBefore, known, List.dropLast_concat, h.files, Journal.files,
      Journal.removeBefore, List.filter_append]
    generalize (j.closed.map (·.segment)).filter (·.seq < seq) = removed at kept last
    rw [List.filter_map]
    congr 1
    · congr 1
      exact List.filter_congr fun s hs => decide_eq_decide.mpr (kept s hs)
    · refine List.filter_eq_self.mpr fun x hx => ?_
      rw [List.mem_singleton.mp hx]
      exact decide_eq_true last
  · simp only [WAL.removeBefore, known, List.dropLast_concat, List.getLast?_concat,
      Option.toList_some, Journal.removeBefore, Journal.segments, List.map_append,
      List.map_singleton, List.filter_map]
    rfl
  · have ordered := List.pairwise_append.mp h.ordered
    refine List.pairwise_append.mpr ⟨ordered.1.sublist List.filter_sublist, ordered.2.1, ?_⟩
    exact fun s hs => ordered.2.2 s (List.mem_filter.mp hs).1

/-- An empty directory gets its first segment. -/
theorem open_fresh (checksum : UInt8 → Bytes → UInt32) (segmentSize : Int) :
    ∃ w, WAL.openDir [] segmentSize = some w ∧ Stores checksum w ⟨[], ⟨⟨1, 0⟩, []⟩⟩ [] := by
  refine ⟨_, rfl, ?_⟩
  exact ⟨rfl, rfl, List.pairwise_singleton _ _, rfl, rfl, rfl⟩

/-- A file is found by its name. -/
theorem find_file {files : List File} (distinct : files.Pairwise (·.segment ≠ ·.segment)) {x : File}
    (hx : x ∈ files) : files.find? (·.segment = x.segment) = some x := by
  induction files with
  | nil => cases hx
  | cons y files ih =>
      obtain ⟨first, others⟩ := List.pairwise_cons.mp distinct
      rcases List.mem_cons.mp hx with rfl | later
      · exact List.find?_cons_of_pos (by simp)
      · rw [List.find?_cons_of_neg (by simpa using first x later)]
        exact ih others later

theorem files_names : (j.files checksum tail).map File.segment = j.segments.map (·.segment) := by
  simp [Journal.files, Journal.segments, LogSegment.file]

theorem names_ordered (ordered : j.Ordered) :
    (j.segments.map (·.segment)).Pairwise (·.seq < ·.seq) :=
  List.pairwise_map.mpr ordered

theorem names_distinct {files : List File}
    (ordered : (files.map File.segment).Pairwise (·.seq < ·.seq)) :
    files.Pairwise (·.segment ≠ ·.segment) := by
  refine (List.pairwise_map.mp ordered).imp fun before same => ?_
  rw [same] at before
  exact Nat.lt_irrefl _ before

theorem files_distinct (ordered : j.Ordered) :
    (j.files checksum tail).Pairwise (·.segment ≠ ·.segment) := by
  refine names_distinct ?_
  rw [files_names]
  exact names_ordered ordered

/-- `Open` on files with growing numbers: the last one is written on at its end. -/
theorem open_files {init : List File} {last : File}
    (ordered : ((init ++ [last]).map File.segment).Pairwise (·.seq < ·.seq)) (segmentSize : Int) :
    ∃ w, WAL.openDir (init ++ [last]) segmentSize = some w ∧ w.files = init ++ [last] ∧
      w.segments = (init ++ [last]).map File.segment ∧ w.active = some last.segment ∧
      w.offset = last.bytes.length ∧ w.size = w.offset := by
  have listed : listSegments (init ++ [last]) = (init ++ [last]).map File.segment :=
    List.Pairwise.insertionSort_eq (ordered.imp Nat.le_of_lt)
  have newest : ((init ++ [last]).map File.segment).getLast? = some last.segment := by
    rw [List.map_append, List.map_singleton, List.getLast?_concat]
  have found : (init ++ [last]).find? (·.segment = last.segment) = some last :=
    find_file (names_distinct ordered) (List.mem_append_right _ (List.mem_singleton.mpr rfl))
  refine ⟨
    { files := init ++ [last]
      segments := (init ++ [last]).map File.segment
      active := some last.segment
      offset := last.bytes.length
      size := last.bytes.length
      segmentSize := if segmentSize ≤ 0 then defaultSegmentSize else segmentSize.toNat }, ?_, rfl,
    rfl, rfl, rfl, rfl⟩
  simp only [WAL.openDir, listed, newest]
  rw [found]
  rfl

/-- `Open` finds the journal as the directory holds it. -/
theorem open_stores (checksum : UInt8 → Bytes → UInt32) (ordered : j.Ordered) (tail : Bytes)
    (segmentSize : Int) :
    ∃ w, WAL.openDir (j.files checksum tail) segmentSize = some w ∧ Stores checksum w j tail := by
  have names : ((j.files checksum tail).map File.segment).Pairwise (·.seq < ·.seq) := by
    rw [files_names]
    exact names_ordered ordered
  obtain ⟨w, opened, files, segments, active, offset, size⟩ := open_files names segmentSize
  exact ⟨w, opened, files, segments.trans files_names, ordered, active, offset, size⟩

end Stores

end EdgeKV.Wal
