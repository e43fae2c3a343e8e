import EdgeKV.Wal.Journal

/-!
Crash recovery. A crash in the middle of an append leaves a beginning of its bytes at the
end of the last file. Reading the log then delivers the records of all appends that
returned and some of the interrupted one, and cuts off the rest, so that the log goes on
from there as if only those had been appended.
-/
namespace EdgeKV.Wal

def Record.Fits (r : Record) : Prop := r.data.length ≤ maxRecordSize

instance (r : Record) : Decidable r.Fits := inferInstanceAs (Decidable (_ ≤ _))

section Reading

variable {checksum : UInt8 → Bytes → UInt32} {σ ε : Type} {fn : σ → Record → Except ε σ}
  {w : WAL} {j : Journal Record} {tail : Bytes} {minSeq : Nat} {st st' : σ}

theorem readSegment_encode (checksum : UInt8 → Bytes → UInt32) {recs : List Record}
    (fits : ∀ r ∈ recs, r.Fits) (folded : recs.foldlM fn st = .ok st') (tail : Bytes) :
    (tail = [] → readSegment checksum fn st (encode checksum recs ++ tail) =
      ⟨st', (encode checksum recs).length, none⟩) ∧
    (readRecord checksum tail = .torn →
      readSegment checksum fn st (encode checksum recs ++ tail) =
        ⟨st', (encode checksum recs).length, some .torn⟩) := by
  have valid : ∀ f ∈ recs.map (·.frame checksum), f.Valid checksum := by
    intro f hf
    obtain ⟨r, hr, rfl⟩ := List.mem_map.mp hf
    exact ⟨fits r hr, rfl⟩
  have same : (recs.map (·.frame checksum)).map Frame.record = recs := by
    rw [List.map_map]
    exact List.map_id recs
  rw [← same] at folded
  rw [encode_store]
  exact readSegment_valid valid folded

/-- Segments without damage are read through. -/
theorem readSegments_whole {segs : List (LogSegment Record)}
    (found : ∀ s ∈ segs, w.files.find? (·.segment = s.segment) = some (s.file checksum))
    (fits : ∀ s ∈ segs, ∀ r ∈ s.records, r.Fits)
    (folded : ((segs.filter (minSeq ≤ ·.segment.seq)).flatMap (·.records)).foldlM fn st = .ok st')
    (more : List Segment) :
    WAL.readSegments checksum minSeq fn w st (segs.map (·.segment) ++ more) =
      WAL.readSegments checksum minSeq fn w st' more := by
  induction segs generalizing st with
  | nil => cases folded; rfl
  | cons s segs ih =>
      have found' := fun x hx => found x (List.mem_cons_of_mem s hx)
      have fits' := fun x hx => fits x (List.mem_cons_of_mem s hx)
      rw [List.map_cons, List.cons_append, WAL.readSegments]
      by_cases early : s.segment.seq < minSeq
      · rw [if_pos early]
        rw [List.filter_cons_of_neg (by simpa using early)] at folded
        exact ih found' fits' folded
      · rw [if_neg early]
        rw [List.filter_cons_of_pos (by simpa using early), List.flatMap_cons,
          List.foldlM_append] at folded
        cases first : s.records.foldlM fn st with
        | error err => rw [first] at folded; cases folded
        | ok mid =>
            rw [first] at folded
            have scanned :=
              (readSegment_encode checksum (fits s List.mem_cons_self) first []).1 rfl
            rw [List.append_nil] at scanned
            simp only [found s List.mem_cons_self, LogSegment.file, scanned]
            exact ih found' fits' folded

theorem found_closed (h : Stores checksum w j tail) {s : LogSegment Record} (hs : s ∈ j.closed) :
    w.files.find? (·.segment = s.segment) = some (s.file checksum) := by
  rw [h.files]
  exact find_file (files_distinct h.ordered) (List.mem_append_left _ (List.mem_map_of_mem hs))

theorem found_active (h : Stores checksum w j tail) :
    w.files.find? (·.segment = j.active.segment) =
      some ⟨j.active.segment, encode checksum j.active.records ++ tail⟩ := by
  rw [h.files]
  exact find_file (files_distinct h.ordered) (List.mem_append_right _ (List.mem_singleton.mpr rfl))

theorem repair_stores (h : Stores checksum w j tail) :
    Stores checksum (w.repair (encode checksum j.active.records).length) j [] := by
  refine ⟨?_, h.segments, h.ordered, h.active, ?_, rfl⟩
  · simp only [WAL.repair, updateActive_files h, truncate_end, Journal.files, List.append_nil]
  · simp only [WAL.repair, List.append_nil]

/-- `ReadAll` on a journal: the callback sees the records of its segments in order. A torn
tail is cut off if the last segment is read at all. -/
theorem readAll_stores (h : Stores checksum w j tail)
    (fits : ∀ s ∈ j.segments, ∀ r ∈ s.records, r.Fits)
    (folded : (j.records minSeq).foldlM fn st = .ok st') :
    (tail = [] → w.readAll checksum minSeq fn st = (.ok st', w)) ∧
    (readRecord checksum tail = .torn → minSeq ≤ j.active.segment.seq →
      ∃ w', w.readAll checksum minSeq fn st = (.ok st', w') ∧ Stores checksum w' j []) := by
  rw [Journal.records, Journal.segments, List.filter_append, List.flatMap_append,
    List.foldlM_append] at folded
  cases first : ((j.closed.filter (minSeq ≤ ·.segment.seq)).flatMap (·.records)).foldlM fn st with
  | error err => rw [first] at folded; cases folded
  | ok mid =>
      rw [first] at folded
      have folded : (([j.active].filter (minSeq ≤ ·.segment.seq)).flatMap (·.records)).foldlM fn
          mid = .ok st' := folded
      have start := readSegments_whole (fun s hs => found_closed h hs)
        (fun s hs => fits s (List.mem_append_left _ hs)) first [j.active.segment]
      rw [WAL.readAll, h.segments, Journal.segments, List.map_append, List.map_singleton, start,
        WAL.readSegments]
      by_cases early : j.active.segment.seq < minSeq
      · rw [List.filter_cons_of_neg (by simpa using early)] at folded
        cases folded
        rw [if_pos early]
        exact ⟨fun _ => rfl, fun _ read => absurd early (Nat.not_lt.mpr read)⟩
      · rw [List.filter_cons_of_pos (by simpa using early), List.filter_nil,
          List.flatMap_singleton] at folded
        have last := fits j.active (List.mem_append_right _ (List.mem_singleton.mpr rfl))
        obtain ⟨clean, torn⟩ := readSegment_encode checksum last folded tail
        simp only [if_neg early, found_active h]
        constructor
        · intro empty
          rw [clean empty]
          rfl
        · intro broken read
          rw [torn broken]
          exact ⟨_, rfl, repair_stores h⟩

theorem collect_all (recs seen : List Record) :
    recs.foldlM collect seen = .ok (seen ++ recs) := by
  induction recs generalizing seen with
  | nil => rw [List.append_nil]; rfl
  | cons r recs ih =>
      rw [List.foldlM_cons]
      change recs.foldlM collect (seen ++ [r]) = _
      rw [ih, List.append_assoc]
      rfl

/-- A whole record is read, whatever follows it. -/
theorem readRecord_encode {r : Record} (fits : r.Fits) (recs : List Record) (tail : Bytes) :
    readRecord checksum (encode checksum (r :: recs) ++ tail) =
      .record r (encode checksum recs ++ tail) := by
  have valid : (r.frame checksum).Valid checksum := ⟨fits, rfl⟩
  rw [encode, List.flatMap_cons, List.append_assoc, readRecord_frame _ (valid_short valid),
    if_pos valid]
  rfl

/-- The bytes determine which records are whole and where the torn one starts. -/
theorem encode_torn_inj {recs recs' : List Record} {tail tail' : Bytes}
    (fits : ∀ r ∈ recs, r.Fits) (fits' : ∀ r ∈ recs', r.Fits)
    (torn : tail = [] ∨ readRecord checksum tail = .torn)
    (torn' : tail' = [] ∨ readRecord checksum tail' = .torn)
    (same : encode checksum recs ++ tail = encode checksum recs' ++ tail') :
    recs = recs' ∧ tail = tail' := by
  have ends : ∀ {b : Bytes}, b = [] ∨ readRecord checksum b = .torn → ∀ r rest,
      readRecord checksum b ≠ .record r rest := by
    rintro b (rfl | torn) r rest read
    · cases read
    · rw [torn] at read
      cases read
  induction recs generalizing recs' with
  | nil =>
      cases recs' with
      | nil => exact ⟨rfl, same⟩
      | cons r' recs' =>
          have read : readRecord checksum (encode checksum (r' :: recs') ++ tail') = _ :=
            readRecord_encode (fits' r' List.mem_cons_self) recs' tail'
          rw [← same] at read
          exact absurd read (ends torn _ _)
  | cons r recs ih =>
      have read : readRecord checksum (encode checksum (r :: recs) ++ tail) = _ :=
        readRecord_encode (fits r List.mem_cons_self) recs tail
      rw [same] at read
      cases recs' with
      | nil => exact absurd read (ends torn' _ _)
      | cons r' recs' =>
          rw [readRecord_encode (fits' r' List.mem_cons_self)] at read
          obtain ⟨rfl, rest⟩ := Head.record.inj read
          obtain ⟨rfl, rfl⟩ := ih (fun x hx => fits x (List.mem_cons_of_mem _ hx))
            (fun x hx => fits' x (List.mem_cons_of_mem _ hx)) rest.symm
          exact ⟨rfl, rfl⟩

/-- A beginning of the bytes of some records is the bytes of the first of them, and what
follows is torn. -/
theorem encode_cut {recs : List Record} (fits : ∀ r ∈ recs, r.Fits) {cut : Bytes}
    (begun : cut <+: encode checksum recs) :
    ∃ kept tail, kept <+: recs ∧ cut = encode checksum kept ++ tail ∧
      (tail = [] ∨ readRecord checksum tail = .torn) := by
  induction recs generalizing cut with
  | nil =>
      rw [List.prefix_nil.mp begun]
      exact ⟨[], [], List.prefix_rfl, rfl, Or.inl rfl⟩
  | cons r recs ih =>
      have valid : (r.frame checksum).Valid checksum := ⟨fits r List.mem_cons_self, rfl⟩
      have split : encode checksum (r :: recs) = (r.frame checksum).bytes ++ encode checksum recs :=
        List.flatMap_cons
      rw [split] at begun
      rcases List.prefix_or_prefix_of_prefix begun (List.prefix_append _ _) with inside | past
      · -- the cut falls into the first record
        rcases Nat.lt_or_ge cut.length (r.frame checksum).bytes.length with unfinished | whole
        · refine ⟨[], cut, List.nil_prefix, rfl, ?_⟩
          by_cases empty : cut = []
          · exact Or.inl empty
          · exact Or.inr (readRecord_begun (valid_short valid) inside unfinished empty)
        · rw [inside.eq_of_length_le whole]
          refine ⟨[r], [], List.prefix_cons_inj r |>.mpr List.nil_prefix, ?_, Or.inl rfl⟩
          simp [encode]
      · obtain ⟨rest, rfl⟩ := past
        obtain ⟨kept, tail, pre, rfl, torn⟩ :=
          ih (fun x hx => fits x (List.mem_cons_of_mem r hx))
            ((List.prefix_append_right_inj _).mp begun)
        refine ⟨r :: kept, tail, (List.prefix_cons_inj r).mpr pre, ?_, torn⟩
        rw [← List.append_assoc]
        rfl

end Reading

section Calls

/-- A call that changes the log. -/
inductive Op
  | append (recs : List Record)
  | rotate (tag : Nat) (head : List Record)
  | removeBefore (seq : Nat)
  deriving DecidableEq, Repr

/-- The records that the call adds. -/
def Op.recs : Op → List Record
  | .append recs => recs
  | .rotate _ head => head
  | .removeBefore _ => []

def Op.adds : Op → Bool
  | .removeBefore _ => false
  | _ => true

def WAL.exec (checksum : UInt8 → Bytes → UInt32) (w : WAL) : Op → Option WAL
  | .append recs => some (w.appendLocked checksum recs)
  | .rotate tag head => (w.rotate checksum tag head).map Prod.snd
  | .removeBefore seq => some (w.removeBefore seq)

def WAL.execAll (checksum : UInt8 → Bytes → UInt32) (w : WAL) : List Op → Option WAL
  | [] => some w
  | op :: ops => (w.exec checksum op).bind fun w' => execAll checksum w' ops

def Journal.exec (j : Journal Record) : Op → Journal Record
  | .append recs => j.append recs
  | .rotate tag head => j.rotate tag head
  | .removeBefore seq => j.removeBefore seq

/-- The directory after a crash that left `cut` of the bytes being appended. -/
def WAL.crash (w : WAL) (cut : Bytes) : List File := w.updateActive (writeAt w.offset cut)

/-- A log in use and the journal of what it holds. A crash may interrupt an append at any
byte; the log is then opened and read from a segment that it has or an earlier one, and
what is read beyond the returned appends counts as appended. -/
inductive Reached (checksum : UInt8 → Bytes → UInt32) : WAL → Journal Record → Prop
  | fresh {segmentSize : Int} {w : WAL} (opened : WAL.openDir [] segmentSize = some w) :
      Reached checksum w ⟨[], ⟨⟨1, 0⟩, []⟩⟩
  | call {w w' : WAL} {j : Journal Record} {op : Op} (h : Reached checksum w j)
      (fits : ∀ r ∈ op.recs, r.Fits) (returned : w.exec checksum op = some w') :
      Reached checksum w' (j.exec op)
  | restart {w w₀ w' : WAL} {j : Journal Record} {recs kept : List Record} {cut : Bytes} {minSeq : Nat}
      {segmentSize : Int} (h : Reached checksum w j) (fits : ∀ r ∈ recs, r.Fits)
      (begun : cut <+: encode checksum recs) (known : minSeq ≤ j.active.segment.seq)
      (opened : WAL.openDir (w.crash cut) segmentSize = some w₀)
      (read : w₀.readAll checksum minSeq collect [] = (.ok (j.records minSeq ++ kept), w')) :
      Reached checksum w' (j.append kept)

end Calls

section Runs

variable {checksum : UInt8 → Bytes → UInt32} {w w' : WAL} {j : Journal Record}

def Journal.Fits (j : Journal Record) : Prop := ∀ s ∈ j.segments, ∀ r ∈ s.records, r.Fits

theorem exec_stores (h : Stores checksum w j []) (op : Op) :
    ∃ w', w.exec checksum op = some w' ∧ Stores checksum w' (j.exec op) [] := by
  cases op with
  | append recs => exact ⟨_, rfl, append_stores h recs⟩
  | rotate tag head =>
      obtain ⟨w', rotated, stores⟩ := rotate_stores h tag head
      refine ⟨w', ?_, stores⟩
      rw [WAL.exec, rotated]
      rfl
  | removeBefore seq => exact ⟨_, rfl, removeBefore_stores h seq⟩

theorem exec_fits (op : Op) (fits : j.Fits) (new : ∀ r ∈ op.recs, r.Fits) : (j.exec op).Fits := by
  intro s hs r hr
  cases op with
  | append recs =>
      rcases List.mem_append.mp hs with closed | active
      · exact fits s (List.mem_append_left _ closed) r hr
      · rw [List.mem_singleton.mp active] at hr
        rcases List.mem_append.mp hr with old | added
        · exact fits j.active (List.mem_append_right _ (List.mem_singleton.mpr rfl)) r old
        · exact new r added
  | rotate tag head =>
      rcases List.mem_append.mp hs with closed | active
      · exact fits s closed r hr
      · rw [List.mem_singleton.mp active] at hr
        exact new r hr
  | removeBefore seq =>
      rcases List.mem_append.mp hs with closed | active
      · exact fits s (List.mem_append_left _ (List.mem_filter.mp closed).1) r hr
      · exact fits s (List.mem_append_right _ active) r hr

/-- New records follow those that are there, for a reader that reads the last segment. -/
theorem exec_records (op : Op) {minSeq : Nat} (adds : op.adds = true)
    (known : minSeq ≤ j.active.segment.seq) :
    (j.exec op).records minSeq = j.records minSeq ++ op.recs ∧
      minSeq ≤ (j.exec op).active.segment.seq := by
  cases op with
  | append recs =>
      refine ⟨?_, known⟩
      simp [Journal.exec, Journal.append, Journal.records, Journal.segments, known, Op.recs]
  | rotate tag head =>
      refine ⟨?_, Nat.le_succ_of_le known⟩
      simp [Journal.exec, Journal.rotate, Journal.records, Journal.segments, known, Op.recs,
        Nat.le_succ_of_le known]
  | removeBefore seq => cases adds

theorem execAll_stores {ops : List Op} {minSeq : Nat} (h : Stores checksum w j []) (fits : j.Fits)
    (known : minSeq ≤ j.active.segment.seq)
    (adds : ∀ op ∈ ops, op.adds = true ∧ ∀ r ∈ op.recs, r.Fits) :
    ∃ w' j', w.execAll checksum ops = some w' ∧ Stores checksum w' j' [] ∧ j'.Fits ∧
      j'.records minSeq = j.records minSeq ++ ops.flatMap Op.recs := by
  induction ops generalizing w j with
  | nil => exact ⟨w, j, rfl, h, fits, by simp⟩
  | cons op ops ih =>
      obtain ⟨adding, new⟩ := adds op List.mem_cons_self
      obtain ⟨w₁, done, stores⟩ := exec_stores h op
      obtain ⟨records, known'⟩ := exec_records op adding known
      obtain ⟨w', j', rest, stores', fits', all⟩ := ih stores (exec_fits op fits new) known'
        fun x hx => adds x (List.mem_cons_of_mem op hx)
      refine ⟨w', j', ?_, stores', fits', ?_⟩
      · rw [WAL.execAll, done]
        exact rest
      · rw [all, records, List.flatMap_cons, List.append_assoc]

/-- What a crash leaves is opened. It holds the records that were written whole, and the
beginning of the next one. -/
theorem crash_exact {recs : List Record} {cut : Bytes} (h : Stores checksum w j []) (fits : j.Fits)
    (new : ∀ r ∈ recs, r.Fits) (begun : cut <+: encode checksum recs) (segmentSize : Int) :
    ∃ w₀ kept tail, cut = encode checksum kept ++ tail ∧
      WAL.openDir (w.crash cut) segmentSize = some w₀ ∧ kept <+: recs ∧
      Stores checksum w₀ (j.append kept) tail ∧ (j.append kept).Fits ∧
      (tail = [] ∨ readRecord checksum tail = .torn) := by
  obtain ⟨kept, tail, pre, rfl, torn⟩ := encode_cut new begun
  have fits' : (j.append kept).Fits :=
    exec_fits (.append kept) fits fun r hr => new r (pre.subset hr)
  have left : w.crash (encode checksum kept ++ tail) = (j.append kept).files checksum tail := by
    rw [WAL.crash, updateActive_files h, h.offset, writeAt_end]
    simp [Journal.files, Journal.append]
  have ordered : (j.append kept).Ordered := (append_stores h kept).ordered
  obtain ⟨w₀, opened, stores⟩ := open_stores checksum ordered tail segmentSize
  rw [left]
  exact ⟨w₀, kept, tail, rfl, opened, pre, stores, fits', torn⟩

theorem crash_stores {recs : List Record} {cut : Bytes} (h : Stores checksum w j []) (fits : j.Fits)
    (new : ∀ r ∈ recs, r.Fits) (begun : cut <+: encode checksum recs) (segmentSize : Int) :
    ∃ w₀ kept tail, WAL.openDir (w.crash cut) segmentSize = some w₀ ∧ kept <+: recs ∧
      Stores checksum w₀ (j.append kept) tail ∧ (j.append kept).Fits ∧
      (tail = [] ∨ readRecord checksum tail = .torn) := by
  obtain ⟨w₀, kept, tail, -, rest⟩ := crash_exact h fits new begun segmentSize
  exact ⟨w₀, kept, tail, rest⟩

/-- Reading what a crash left, with a torn tail or without one. -/
theorem readAll_crashed {σ ε : Type} {fn : σ → Record → Except ε σ} {st st' : σ} {tail : Bytes}
    {minSeq : Nat} (h : Stores checksum w j tail) (fits : j.Fits)
    (torn : tail = [] ∨ readRecord checksum tail = .torn) (known : minSeq ≤ j.active.segment.seq)
    (folded : (j.records minSeq).foldlM fn st = .ok st') :
    ∃ w', w.readAll checksum minSeq fn st = (.ok st', w') ∧ Stores checksum w' j [] := by
  obtain ⟨clean, repaired⟩ := readAll_stores h fits folded
  rcases torn with rfl | broken
  · exact ⟨w, clean rfl, h⟩
  · exact repaired broken known

/-- What a crash leaves is opened, and read up to some record of the interrupted append. -/
theorem restart_stores {recs : List Record} {cut : Bytes} {minSeq : Nat}
    (h : Stores checksum w j []) (fits : j.Fits) (new : ∀ r ∈ recs, r.Fits)
    (begun : cut <+: encode checksum recs) (known : minSeq ≤ j.active.segment.seq)
    (segmentSize : Int) :
    ∃ w₀ w' kept, WAL.openDir (w.crash cut) segmentSize = some w₀ ∧
      w₀.readAll checksum minSeq collect [] = (.ok (j.records minSeq ++ kept), w') ∧
      kept <+: recs ∧ Stores checksum w' (j.append kept) [] ∧ (j.append kept).Fits := by
  obtain ⟨w₀, kept, tail, opened, pre, stores, fits', torn⟩ :=
    crash_stores h fits new begun segmentSize
  obtain ⟨records, known'⟩ := exec_records (.append kept) rfl known
  have folded : ((j.append kept).records minSeq).foldlM collect [] =
      .ok (j.records minSeq ++ kept) := by
    rw [collect_all, List.nil_append]
    exact congrArg _ records
  obtain ⟨w', read, stores'⟩ := readAll_crashed stores fits' torn known' folded
  exact ⟨w₀, w', kept, opened, read, pre, stores', fits'⟩

theorem reached_stores (h : Reached checksum w j) : Stores checksum w j [] ∧ j.Fits := by
  induction h with
  | fresh opened =>
      obtain ⟨w', opened', stores⟩ := open_fresh checksum _
      obtain rfl := Option.some.inj (opened.symm.trans opened')
      refine ⟨stores, fun s hs r hr => ?_⟩
      rw [List.mem_singleton.mp hs] at hr
      cases hr
  | call _ new returned ih =>
      obtain ⟨w', returned', stores⟩ := exec_stores ih.1 _
      obtain rfl := Option.some.inj (returned.symm.trans returned')
      exact ⟨stores, exec_fits _ ih.2 new⟩
  | restart _ new begun known opened read ih =>
      obtain ⟨w₀, w', kept, opened', read', -, stores, fits⟩ :=
        restart_stores ih.1 ih.2 new begun known _
      obtain rfl := Option.some.inj (opened.symm.trans opened')
      obtain ⟨delivered, rfl⟩ := Prod.mk.inj (read.symm.trans read')
      rw [List.append_cancel_left (Except.ok.inj delivered)]
      exact ⟨stores, fits⟩

/-- After a crash that left `cut` of the append of `recs`, the log opens, and reading it
delivers what the journal holds and some of the records being appended. Whatever is then
added follows that list when the log is read again. -/
def Recovers (checksum : UInt8 → Bytes → UInt32) (w : WAL) (j : Journal Record) (recs : List Record)
    (cut : Bytes) (minSeq : Nat) (segmentSize : Int) : Prop :=
  ∃ w₀ w' kept, WAL.openDir (w.crash cut) segmentSize = some w₀ ∧
    w₀.readAll checksum minSeq collect [] = (.ok (j.records minSeq ++ kept), w') ∧ kept <+: recs ∧
    ∀ ops : List Op, (∀ op ∈ ops, op.adds = true ∧ ∀ r ∈ op.recs, r.Fits) →
      ∃ w₂, w'.execAll checksum ops = some w₂ ∧
        (w₂.readAll checksum minSeq collect []).1 =
          .ok (j.records minSeq ++ kept ++ ops.flatMap Op.recs)

theorem crash_recovered (checksum : UInt8 → Bytes → UInt32) (w : WAL) (j : Journal Record)
    (reached : Reached checksum w j) (recs : List Record) (fits : ∀ r ∈ recs, r.Fits) (cut : Bytes)
    (begun : cut <+: encode checksum recs) (minSeq : Nat)
    (known : minSeq ≤ j.active.segment.seq) (segmentSize : Int) :
    Recovers checksum w j recs cut minSeq segmentSize := by
  obtain ⟨stores, whole⟩ := reached_stores reached
  obtain ⟨w₀, w', kept, opened, read, pre, stores', whole'⟩ :=
    restart_stores stores whole fits begun known segmentSize
  refine ⟨w₀, w', kept, opened, read, pre, fun ops adds => ?_⟩
  obtain ⟨records, known'⟩ := exec_records (.append kept) rfl known
  obtain ⟨w₂, j₂, done, stores₂, whole₂, all⟩ := execAll_stores stores' whole' known' adds
  have folded : (j₂.records minSeq).foldlM collect [] =
      .ok (j.records minSeq ++ kept ++ ops.flatMap Op.recs) := by
    rw [collect_all, List.nil_append, all]
    exact congrArg (fun l => Except.ok (l ++ ops.flatMap Op.recs)) records
  refine ⟨w₂, done, ?_⟩
  rw [(readAll_stores stores₂ whole₂ folded).1 rfl]

/-- One record is stored, and the header of a second one is torn. -/
theorem crash_recovered_header :
    ∃ w j, Reached castagnoli w j ∧ j.records 1 = [⟨2, [5]⟩] ∧
      Recovers castagnoli w j [⟨1, [7]⟩] ((encode castagnoli [⟨1, [7]⟩]).take 3) 1 0 := by
  have opened : WAL.openDir [] 0 = some _ := rfl
  have reached : Reached castagnoli _ _ :=
    .call (.fresh opened) (show ∀ r ∈ (Op.append [⟨2, [5]⟩]).recs, r.Fits by decide) rfl
  exact ⟨_, _, reached, rfl, crash_recovered castagnoli _ _ reached _ (by decide) _
    (List.take_prefix 3 _) 1 (by decide) 0⟩

/-- A reader that starts after the last segment never sees what is added to it. -/
theorem crash_unread :
    ∃ w j, Reached castagnoli w j ∧ (∀ r ∈ [Record.mk 1 [7]], r.Fits) ∧
      [] <+: encode castagnoli [⟨1, [7]⟩] ∧ ¬ Recovers castagnoli w j [⟨1, [7]⟩] [] 2 0 := by
  refine ⟨_, _, .fresh (show WAL.openDir [] 0 = some _ from rfl), by decide, List.nil_prefix, ?_⟩
  rintro ⟨w₀, w', kept, opened, read, -, more⟩
  obtain rfl := Option.some.inj opened
  obtain ⟨delivered, rfl⟩ := Prod.mk.inj read
  obtain ⟨w₂, done, again⟩ := more [.append [⟨1, [7]⟩]] (by decide)
  obtain rfl := Option.some.inj done
  have sizes := congrArg List.length (Except.ok.inj again)
  simp [Op.recs] at sizes

end Runs

end EdgeKV.Wal
