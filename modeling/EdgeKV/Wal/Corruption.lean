import EdgeKV.Wal.Recovery

/-!
Damage to a stored record. `ReadAll` tells a torn tail from corruption by the segment only:
whatever does not scan in the last segment is cut off, and the records after it are lost
with it.
-/
namespace EdgeKV.Wal

/-- Bytes that are valid frames one after the other. -/
def WellFormed (checksum : UInt8 → Bytes → UInt32) (b : Bytes) : Prop :=
  ∃ frames : List Frame, (∀ f ∈ frames, f.Valid checksum) ∧ b = store frames

section Scanning

variable {checksum : UInt8 → Bytes → UInt32} {w : WAL}

theorem wellFormed_read {b : Bytes} (whole : WellFormed checksum b) (st : List Record) :
    (readSegment checksum collect st b).error = none := by
  obtain ⟨frames, valid, rfl⟩ := whole
  have read := (readSegment_valid valid (collect_all (frames.map Frame.record) st)).1 rfl
  rw [List.append_nil] at read
  rw [read]

/-- A segment delivers the valid frames it starts with, and is torn if there is more. -/
theorem readSegment_collect (checksum : UInt8 → Bytes → UInt32) (b : Bytes) (st : List Record) :
    ∃ (frames : List Frame) (offset : Nat), (∀ f ∈ frames, f.Valid checksum) ∧
      ((WellFormed checksum b ∧
        readSegment checksum collect st b = ⟨st ++ frames.map Frame.record, offset, none⟩) ∨
      (¬ WellFormed checksum b ∧
        readSegment checksum collect st b =
          ⟨st ++ frames.map Frame.record, offset, some .torn⟩)) := by
  obtain ⟨frames, tail, valid, rfl, rest⟩ := frames_split checksum b
  have folded := collect_all (frames.map Frame.record) st
  refine ⟨frames, (store frames).length, valid, ?_⟩
  rcases rest with rfl | torn
  · refine Or.inl ⟨⟨frames, valid, List.append_nil _⟩, ?_⟩
    exact (readSegment_valid valid folded).1 rfl
  · have read := (readSegment_valid valid folded).2 torn
    refine Or.inr ⟨fun whole => ?_, read⟩
    have clean := wellFormed_read whole st
    rw [read] at clean
    cases clean

theorem record_fits {f : Frame} (valid : f.Valid checksum) : f.record.Fits := valid.1

/-- Only records of an accepted length are ever delivered. -/
theorem delivered_fits {segs : List Segment} {st st' : List Record}
    (fits : ∀ r ∈ st, r.Fits)
    (read : (WAL.readSegments checksum 0 collect w st segs).1 = .ok st') : ∀ r ∈ st', r.Fits := by
  induction segs generalizing st with
  | nil => cases read; exact fits
  | cons seg segs ih =>
      rw [WAL.readSegments, if_neg (Nat.not_lt_zero _)] at read
      cases found : w.files.find? (·.segment = seg) with
      | none => simp only [found] at read; cases read
      | some file =>
          obtain ⟨frames, offset, valid, scan⟩ := readSegment_collect checksum file.bytes st
          have more : ∀ r ∈ st ++ frames.map Frame.record, r.Fits := by
            intro r hr
            rcases List.mem_append.mp hr with old | new
            · exact fits r old
            · obtain ⟨f, hf, rfl⟩ := List.mem_map.mp new
              exact record_fits (valid f hf)
          simp only [found] at read
          rcases scan with ⟨-, scan⟩ | ⟨-, scan⟩
          · rw [scan] at read
            exact ih more read
          · rw [scan] at read
            dsimp only at read
            split at read
            · cases read
            · cases read; exact more

/-- The last file is read as far as it scans. -/
theorem readSegments_last {x : File} (found : w.files.find? (·.segment = x.segment) = some x)
    {frames : List Frame} {tail : Bytes} (valid : ∀ f ∈ frames, f.Valid checksum)
    (bytes : x.bytes = store frames ++ tail) (rest : tail = [] ∨ readRecord checksum tail = .torn)
    (st : List Record) :
    (WAL.readSegments checksum 0 collect w st [x.segment]).1 =
      .ok (st ++ frames.map Frame.record) := by
  obtain ⟨clean, torn⟩ := readSegment_valid valid (collect_all (frames.map Frame.record) st)
  rw [WAL.readSegments, if_neg (Nat.not_lt_zero _)]
  simp only [found, bytes]
  rcases rest with empty | broken
  · rw [clean empty]
    rfl
  · rw [torn broken]
    rfl

/-- A file that does not scan is fatal unless it is the last one, which is read as far as
it scans. -/
theorem readSegments_files (checksum : UInt8 → Bytes → UInt32) {init : List File} {last : File}
    (found : ∀ x ∈ init ++ [last], w.files.find? (·.segment = x.segment) = some x)
    (st : List Record) :
    ((∃ x ∈ init, ¬ WellFormed checksum x.bytes) → ∃ segment offset,
      WAL.readSegments checksum 0 collect w st ((init ++ [last]).map File.segment) =
        (.error (.corrupt segment offset), w)) ∧
    ((∀ x ∈ init, WellFormed checksum x.bytes) → ∃ recs,
      (WAL.readSegments checksum 0 collect w st ((init ++ [last]).map File.segment)).1 =
        .ok recs) := by
  induction init generalizing st with
  | nil =>
      refine ⟨by simp, fun _ => ?_⟩
      obtain ⟨frames, tail, valid, bytes, rest⟩ := frames_split checksum last.bytes
      exact ⟨_, readSegments_last (found last (List.mem_singleton.mpr rfl)) valid bytes rest st⟩
  | cons x init ih =>
      have here := found x List.mem_cons_self
      have later : (init ++ [last]).map File.segment ≠ [] := by simp
      obtain ⟨frames, offset, -, scan⟩ := readSegment_collect checksum x.bytes st
      obtain ⟨broken, clean⟩ :=
        ih (fun y hy => found y (List.mem_cons_of_mem x hy)) (st ++ frames.map Frame.record)
      rw [List.cons_append, List.map_cons, WAL.readSegments, if_neg (Nat.not_lt_zero _)]
      simp only [here]
      rcases scan with ⟨whole, scan⟩ | ⟨torn, scan⟩
      · rw [scan]
        refine ⟨?_, fun all => clean fun y hy => all y (List.mem_cons_of_mem x hy)⟩
        rintro ⟨y, hy, bad⟩
        rcases List.mem_cons.mp hy with rfl | hy
        · exact absurd whole bad
        · exact broken ⟨y, hy, bad⟩
      · rw [scan]
        simp only [if_pos later]
        exact ⟨fun _ => ⟨_, _, rfl⟩, fun all => absurd (all x List.mem_cons_self) torn⟩

/-- A first frame that is not valid is where reading stops. -/
theorem store_malformed {frames : List Frame} (short : ∀ f ∈ frames, f.data.length < 256 ^ 4)
    {f : Frame} (hf : f ∈ frames) (bad : ¬ f.Valid checksum) (rest : Bytes) :
    ¬ WellFormed checksum (store frames ++ rest) := by
  obtain ⟨good, first, more, rfl, valid, broken⟩ : ∃ good first more,
      frames = good ++ first :: more ∧ (∀ f ∈ good, f.Valid checksum) ∧
        ¬ first.Valid checksum := by
    clear short
    induction frames with
    | nil => cases hf
    | cons x frames ih =>
        by_cases valid : x.Valid checksum
        · rcases List.mem_cons.mp hf with rfl | later
          · exact absurd valid bad
          · obtain ⟨good, first, more, rfl, others, broken⟩ := ih later
            exact ⟨x :: good, first, more, rfl, List.forall_mem_cons.mpr ⟨valid, others⟩, broken⟩
        · exact ⟨[], x, frames, rfl, by simp, valid⟩
  have torn : readRecord checksum (first.bytes ++ (store more ++ rest)) = .torn := by
    rw [readRecord_frame first (short first (by simp)), if_neg broken]
  have read := (readSegment_valid valid (collect_all (good.map Frame.record) [])).2 torn
  have split : store (good ++ first :: more) ++ rest =
      store good ++ (first.bytes ++ (store more ++ rest)) := by
    simp [store]
  intro whole
  have clean := wellFormed_read whole []
  rw [split, read] at clean
  cases clean

end Scanning

section Damage

/-- A log in use and its journal, without restarts. -/
inductive Written (checksum : UInt8 → Bytes → UInt32) : WAL → Journal Record → Prop
  | fresh {segmentSize : Int} {w : WAL} (opened : WAL.openDir [] segmentSize = some w) :
      Written checksum w ⟨[], ⟨⟨1, 0⟩, []⟩⟩
  | call {w w' : WAL} {j : Journal Record} {op : Op} (h : Written checksum w j) (adds : op.adds = true)
      (returned : w.exec checksum op = some w') : Written checksum w' (j.exec op)

theorem written_stores {checksum : UInt8 → Bytes → UInt32} {w : WAL} {j : Journal Record}
    (h : Written checksum w j) : Stores checksum w j [] := by
  induction h with
  | fresh opened =>
      obtain ⟨w', opened', stores⟩ := open_fresh checksum _
      obtain rfl := Option.some.inj (opened.symm.trans opened')
      exact stores
  | call _ _ returned ih =>
      obtain ⟨w', returned', stores⟩ := exec_stores ih _
      obtain rfl := Option.some.inj (returned.symm.trans returned')
      exact stores

/-- One record of the journal is stored with another checksum, type or data of the same
length, and its checksum does not hold. -/
structure Damage (checksum : UInt8 → Bytes → UInt32) (j : Journal Record) where
  before : List (LogSegment Record)
  segment : Segment
  head : List Record
  record : Record
  rest : List Record
  after : List (LogSegment Record)
  frame : Frame
  place : j.segments = before ++ ⟨segment, head ++ record :: rest⟩ :: after
  length : frame.data.length = record.data.length
  fails : frame.sum ≠ checksum frame.type frame.data

namespace Damage

variable {checksum : UInt8 → Bytes → UInt32} {j : Journal Record} (d : Damage checksum j)

/-- The segment file that holds the damaged record. -/
def file : File :=
  ⟨d.segment, encode checksum d.head ++ (d.frame.bytes ++ encode checksum d.rest)⟩

def files : List File :=
  d.before.map (·.file checksum) ++ d.file :: d.after.map (·.file checksum)

/-- The damaged record is the last record of the last segment. -/
def Last : Prop := d.rest = [] ∧ d.after = []

/-- The records before the damaged one. -/
def preceding : List Record := d.before.flatMap (·.records) ++ d.head

/-- No valid frame starts where the damaged one does. A length of four bytes says so of
every record that is not too long for it. -/
def Torn : Prop := ∀ f rest, Frame.Valid checksum f → d.frame.bytes ≠ f.bytes ++ rest

/-- What `ReadAll` owes to a reader of the damaged log. -/
def Detected (segmentSize : Int) : Prop :=
  ∃ w, WAL.openDir d.files segmentSize = some w ∧
    (¬ d.Last → ∃ segment offset w',
      w.readAll checksum 0 collect [] = (.error (.corrupt segment offset), w') ∧
        w'.files = d.files) ∧
    (d.Last → ∀ recs, (w.readAll checksum 0 collect []).1 = .ok recs → recs = d.preceding)

variable {d} {w : WAL}

theorem not_valid : ¬ d.frame.Valid checksum := fun valid => d.fails valid.2

theorem torn_of_short (short : d.record.data.length < 256 ^ 4) : d.Torn := by
  intro f rest valid same
  rw [← d.length] at short
  have broken : readRecord checksum (d.frame.bytes ++ []) = _ := readRecord_frame d.frame short []
  rw [if_neg not_valid, List.append_nil, same, readRecord_frame f (valid_short valid),
    if_pos valid] at broken
  cases broken

theorem files_segments : d.files.map File.segment = j.segments.map (·.segment) := by
  rw [files, d.place]
  simp only [List.map_append, List.map_cons, List.map_map]
  rfl

/-- With nothing wrong before it, the damaged record at the end of the log is where the
reader stops, unless its bytes hold frames of their own. -/
theorem last_read (last : d.Last) (segments : w.segments = d.files.map File.segment)
    (found : ∀ x ∈ d.files, w.files.find? (·.segment = x.segment) = some x)
    (fits : ∀ r ∈ d.preceding, r.Fits) :
    ∃ frames : List Frame,
      (w.readAll checksum 0 collect []).1 = .ok (d.preceding ++ frames.map Frame.record) ∧
        (frames = [] ↔ d.Torn) := by
  obtain ⟨rest, after⟩ := last
  have all : d.files = d.before.map (·.file checksum) ++ [d.file] := by rw [files, after]; rfl
  have bytes : d.file.bytes = encode checksum d.head ++ d.frame.bytes := by
    rw [file, rest]
    simp [encode]
  rw [all] at found segments
  obtain ⟨frames, tail, valid, split, torn⟩ := frames_split checksum d.frame.bytes
  refine ⟨frames, ?_, ?_⟩
  · have sealed : ((d.before.filter (0 ≤ ·.segment.seq)).flatMap (·.records)).foldlM collect [] =
        .ok (d.before.flatMap (·.records)) := by
      rw [collect_all]
      simp
    have start := readSegments_whole
      (fun s hs => found _ (List.mem_append_left _ (List.mem_map_of_mem hs)))
      (fun s hs r hr => fits r (List.mem_append_left _ (List.mem_flatMap.mpr ⟨s, hs, hr⟩)))
      sealed [d.segment]
    have whole : ∀ f ∈ d.head.map (·.frame checksum) ++ frames, f.Valid checksum := by
      intro f hf
      rcases List.mem_append.mp hf with old | new
      · obtain ⟨r, hr, rfl⟩ := List.mem_map.mp old
        exact ⟨fits r (List.mem_append_right _ hr), rfl⟩
      · exact valid f new
    have stored : d.file.bytes = store (d.head.map (·.frame checksum) ++ frames) ++ tail := by
      rw [bytes, split, encode_store]
      simp [store]
    have read := readSegments_last (found d.file (List.mem_append_right _ (List.mem_singleton.mpr rfl)))
      whole stored torn (d.before.flatMap (·.records))
    have names : w.segments = d.before.map (·.segment) ++ [d.segment] := by
      rw [segments, List.map_append, List.map_map, List.map_singleton]
      rfl
    have same : (d.head.map (·.frame checksum)).map Frame.record = d.head := by
      rw [List.map_map]
      exact List.map_id d.head
    rw [WAL.readAll, names, start]
    rw [List.map_append, same, ← List.append_assoc] at read
    exact read
  · constructor
    · rintro rfl f more good same
      -- the bytes start with a frame, so they are not torn
      have begun : readRecord checksum tail = .record ⟨f.type, f.data⟩ more := by
        have start : tail = f.bytes ++ more := split.symm.trans same
        rw [start, readRecord_frame f (valid_short good), if_pos good]
      rcases torn with rfl | torn
      · cases begun
      · rw [torn] at begun
        cases begun
    · intro none
      cases frames with
      | nil => rfl
      | cons f frames =>
          refine absurd ?_ (none f (store frames ++ tail) (valid f List.mem_cons_self))
          rw [split]
          simp [store]

/-- Where no record is too long for its length field, damage to a sealed segment does not
scan. -/
theorem sealed_malformed (after : d.after ≠ []) (short : d.record.data.length < 256 ^ 4)
    (head : ∀ r ∈ d.head, r.data.length < 256 ^ 4) :
    ∃ x ∈ d.files.dropLast, ¬ WellFormed checksum x.bytes := by
  have others : d.after.map (·.file checksum) ≠ [] := by simpa using after
  refine ⟨d.file, ?_, ?_⟩
  · rw [files, List.dropLast_append_cons, List.dropLast_cons_of_ne_nil others]
    exact List.mem_append_right _ List.mem_cons_self
  · have bytes : d.file.bytes =
        store (d.head.map (·.frame checksum) ++ [d.frame]) ++ encode checksum d.rest := by
      rw [file, encode_store d.head]
      simp [store]
    rw [bytes]
    refine store_malformed ?_ (List.mem_append_right _ (List.mem_singleton.mpr rfl)) not_valid _
    intro f hf
    rcases List.mem_append.mp hf with old | here
    · obtain ⟨r, hr, rfl⟩ := List.mem_map.mp old
      exact head r hr
    · rw [List.mem_singleton.mp here, d.length]
      exact short

end Damage

theorem damage_detected (checksum : UInt8 → Bytes → UInt32) (w : WAL) (j : Journal Record)
    (written : Written checksum w j) (d : Damage checksum j) (segmentSize : Int) :
    d.Detected segmentSize ↔
      (∃ x ∈ d.files.dropLast, ¬ WellFormed checksum x.bytes) ∨
        (d.Last ∧ (∀ r ∈ d.preceding, r.Fits) ∧ d.Torn) := by
  have nonempty : d.files ≠ [] := by simp [Damage.files]
  have split : d.files = d.files.dropLast ++ [d.files.getLast nonempty] :=
    (List.dropLast_append_getLast nonempty).symm
  have ordered : (d.files.map File.segment).Pairwise (·.seq < ·.seq) := by
    rw [Damage.files_segments]
    exact names_ordered (written_stores written).ordered
  have opening := open_files (split ▸ ordered) segmentSize
  rw [← split] at opening
  obtain ⟨w₀, opened, files, segments, -⟩ := opening
  have found : ∀ x ∈ d.files, w₀.files.find? (·.segment = x.segment) = some x := by
    intro x hx
    rw [files]
    exact find_file (names_distinct ordered) hx
  obtain ⟨broken, clean⟩ := readSegments_files checksum (split ▸ found) []
  rw [← split, ← segments] at broken clean
  by_cases bad : ∃ x ∈ d.files.dropLast, ¬ WellFormed checksum x.bytes
  · obtain ⟨segment, offset, read⟩ := broken bad
    refine ⟨fun _ => Or.inl bad, fun _ => ⟨w₀, opened, fun _ => ?_, fun _ recs ok => ?_⟩⟩
    · exact ⟨segment, offset, w₀, read, files⟩
    · rw [WAL.readAll, read] at ok
      cases ok
  · obtain ⟨recs, read⟩ := clean fun x hx => not_not.mp fun h => bad ⟨x, hx, h⟩
    constructor
    · rintro ⟨w₁, opened', corrupt, delivered⟩
      obtain rfl := Option.some.inj (opened.symm.trans opened')
      have last : d.Last := by
        by_contra other
        obtain ⟨segment, offset, w', error, -⟩ := corrupt other
        rw [WAL.readAll] at error
        rw [error] at read
        cases read
      have all := delivered last recs read
      have fits : ∀ r ∈ d.preceding, r.Fits := by
        rw [← all]
        exact delivered_fits (by simp) read
      obtain ⟨frames, read', torn⟩ := Damage.last_read last segments found fits
      refine Or.inr ⟨last, fits, torn.mp ?_⟩
      have same := Except.ok.inj (read.symm.trans read')
      rw [all, List.self_eq_append_right] at same
      exact List.map_eq_nil_iff.mp same
    · rintro (bad' | ⟨last, fits, torn⟩)
      · exact absurd bad' bad
      · refine ⟨w₀, opened, fun other => absurd last other, fun _ recs' ok => ?_⟩
        obtain ⟨frames, read', none⟩ := Damage.last_read last segments found fits
        rw [none.mpr torn, List.map_nil, List.append_nil] at read'
        exact Except.ok.inj (ok.symm.trans read')

/-- The journal of one append of two records. -/
def twoRecords : Journal Record := ⟨[], ⟨⟨1, 0⟩, [⟨1, [7]⟩, ⟨1, [8]⟩]⟩⟩

theorem written_twoRecords : ∃ w, Written castagnoli w twoRecords := by
  have opened : WAL.openDir [] 0 = some _ := rfl
  have appended : Op.adds (.append [⟨1, [7]⟩, ⟨1, [8]⟩]) = true := rfl
  exact ⟨_, .call (.fresh opened) appended rfl⟩

/-- A bit of the second record is flipped. -/
def damagedTail : Damage castagnoli twoRecords where
  before := []
  segment := ⟨1, 0⟩
  head := [⟨1, [7]⟩]
  record := ⟨1, [8]⟩
  rest := []
  after := []
  frame := { sum := castagnoli 1 [8], type := 1, data := [9] }
  place := rfl
  length := rfl
  fails := by decide +kernel

theorem damage_detected_tail :
    ∃ w, Written castagnoli w twoRecords ∧ damagedTail.Detected 0 := by
  obtain ⟨w, written⟩ := written_twoRecords
  refine ⟨w, written, (damage_detected castagnoli w twoRecords written damagedTail 0).mpr ?_⟩
  exact Or.inr ⟨⟨rfl, rfl⟩, by decide, Damage.torn_of_short (by decide)⟩

/-- A bit of the first record is flipped. -/
def damagedHead : Damage castagnoli twoRecords where
  before := []
  segment := ⟨1, 0⟩
  head := []
  record := ⟨1, [7]⟩
  rest := [⟨1, [8]⟩]
  after := []
  frame := { sum := castagnoli 1 [7], type := 1, data := [9] }
  place := rfl
  length := rfl
  fails := by decide +kernel

/-- The reader succeeds without a record, although a good one follows the damaged one, and
cuts both off. -/
theorem damage_unnoticed :
    ¬ damagedHead.Last ∧ (∃ w, Written castagnoli w twoRecords) ∧
      ((WAL.openDir damagedHead.files 0).map fun w =>
        ((w.readAll castagnoli 0 collect []).1, (w.readAll castagnoli 0 collect []).2.files)) =
        some (.ok [], [⟨⟨1, 0⟩, []⟩]) ∧
      ¬ damagedHead.Detected 0 := by
  have other : ¬ damagedHead.Last := fun last => nomatch last.1
  have read : ((WAL.openDir damagedHead.files 0).map fun w =>
      ((w.readAll castagnoli 0 collect []).1, (w.readAll castagnoli 0 collect []).2.files)) =
      some (.ok [], [⟨⟨1, 0⟩, []⟩]) := by decide +kernel
  refine ⟨other, written_twoRecords, read, ?_⟩
  rintro ⟨w, opened, corrupt, -⟩
  obtain ⟨segment, offset, w', error, -⟩ := corrupt other
  rw [opened, Option.map_some, error] at read
  cases read

end Damage

end EdgeKV.Wal
