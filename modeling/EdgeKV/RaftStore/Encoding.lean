import EdgeKV.RaftStore.Discard
import EdgeKV.Store.Codecs
import EdgeKV.Wal.Recovery

/-!
The log of the store as bytes. A record of the store is one of the write-ahead log, which
has a type and an encoded message. The calls of the store are followed on the files of its
directory, and they do to these what their effects do to the journal of typed records.
-/
namespace EdgeKV.RaftStore

open Wal (Record Journal WAL WalError Stores collect)

variable {ID : Type}

def recEntry : UInt8 := 1

def recHardState : UInt8 := 2

inductive ReplayError
  | unmarshal
  | unknown (type : UInt8)
  | load (err : LoadError)
  deriving DecidableEq, Repr

/-- The encodings of the messages in the log. -/
structure RecCodecs (ID : Type) where
  entry : Codec Entry
  hardState : Codec (HardState ID)

namespace RecCodecs

variable (codecs : RecCodecs ID)

def record : Rec ID → Record
  | .hardState hs => ⟨recHardState, codecs.hardState.marshal hs⟩
  | .entry e => ⟨recEntry, codecs.entry.marshal e⟩

def decode (r : Record) : Except ReplayError (Rec ID) :=
  if r.type = recHardState then
    (codecs.hardState.unmarshal r.data).elim (.error .unmarshal) fun hs => .ok (.hardState hs)
  else if r.type = recEntry then
    (codecs.entry.unmarshal r.data).elim (.error .unmarshal) fun e => .ok (.entry e)
  else .error (.unknown r.type)

/-- The callback that `Load` passes to `ReadAll`. -/
def replayRecord (snapIndex : Nat) (st : Option (HardState ID) × List Entry) (r : Record) :
    Except ReplayError (Option (HardState ID) × List Entry) :=
  (codecs.decode r).bind fun rec => (replay snapIndex st rec).mapError .load

/-- The sizes that the records have in their files. -/
def options (segmentSize : Nat) : Options ID where
  size rec := Wal.headerSize + (codecs.record rec).data.length
  segmentSize

end RecCodecs

/-- The directory of the store: the log as bytes, and the snapshot files. -/
structure Dir where
  wal : WAL
  snaps : List SnapFile := []

section Calls

variable (checksum : UInt8 → Bytes → UInt32) (codecs : RecCodecs ID) (dir : Dir) (mem : Mem ID)

/-- `gcLocked` -/
def gcDir (dir : Dir) : Option StoredMeta → Dir
  | none => dir
  | some m =>
      { wal := dir.wal.removeBefore
          (removeBefore m.lastIncludedIndex m.minWalSegment dir.wal.segments.tail)
        snaps := dir.snaps.filter (·.path ∉ (oldFiles m dir.snaps).map (·.path)) }

/-- `rotateLocked` -/
def rotateDir : Option Dir :=
  (dir.wal.rotate checksum (mem.lastIndex + 1)
    (mem.hs.toList.map fun hs => codecs.record (.hardState hs))).map fun r =>
      { dir with wal := r.2 }

/-- `Save` -/
def saveDir (hs : Option (HardState ID)) (entries : List Entry) : Option Dir :=
  let dir' := { dir with
    wal := dir.wal.appendLocked checksum ((saveRecords hs entries).map codecs.record) }
  let mem' := mem.saved hs entries
  if dir'.wal.shouldRotate then (rotateDir checksum codecs dir' mem').map (gcDir · mem'.snapMeta)
  else some dir'

/-- The end of `SaveSnapshot`: the file is written and published. -/
def publishDir (file : SnapFile) : Dir × Mem ID :=
  let published := mem.publish file.snapMeta
  (gcDir { dir with snaps := dir.snaps.filter (·.path ≠ file.path) ++ [file] } published.snapMeta,
    published)

/-- `SaveSnapshot` with nothing in between. -/
def snapshotDir (snapMeta : SnapshotMeta) (data : Bytes) (discardLog : Bool) :
    Option (Dir × Mem ID) :=
  if mem.snapMeta.any (snapMeta.lastIncludedIndex ≤ ·.lastIncludedIndex) then some (dir, mem)
  else if discardLog then
    let mem' := { mem with lastIndex := snapMeta.lastIncludedIndex }
    (rotateDir checksum codecs dir mem').bind fun dir' =>
      dir'.wal.segments.getLast?.map fun seg =>
        publishDir dir' mem' ⟨{ snapMeta with minWalSegment := seg.seq }, data⟩
  else
    let seq := (mem.snapMeta.map (·.minWalSegment)).getD 0
    some (publishDir dir mem ⟨{ snapMeta with minWalSegment := seq }, data⟩)

/-- A call on the files, and the fields after it. -/
def callDir : Call ID → Option (Dir × Mem ID)
  | .save hs entries => (saveDir checksum codecs dir mem hs entries).map (·, mem.saved hs entries)
  | .saveSnapshot snapMeta data discardLog =>
      snapshotDir checksum codecs dir mem snapMeta data discardLog

/-- What `Load` returns, and the log that it leaves. -/
def loadDir : Except (WalError ReplayError) (Loaded ID) × WAL :=
  let file := loadNewestSnapshot dir.snaps
  let (read, wal) := dir.wal.readAll checksum (minSegment file)
    (codecs.replayRecord (snapIndex file)) (none, [])
  (read.map fun st => (loadedWith file st).1, wal)

/-- The records that `Load` reads. -/
def readDir : Except (WalError Empty) (List Record) :=
  (dir.wal.readAll checksum (minSegment (loadNewestSnapshot dir.snaps)) collect []).1

end Calls

variable {checksum : UInt8 → Bytes → UInt32} {codecs : RecCodecs ID} {dir : Dir} {w w' : WAL}
  {d : Disk ID} {mem : Mem ID} {n : Nat}

section Replay

theorem decode_record (rec : Rec ID) : codecs.decode (codecs.record rec) = .ok rec := by
  cases rec with
  | hardState hs =>
      rw [RecCodecs.decode, RecCodecs.record, if_pos rfl, codecs.hardState.round]
      rfl
  | entry e =>
      rw [RecCodecs.decode, RecCodecs.record, if_neg (show ¬ recEntry = recHardState by decide),
        if_pos rfl, codecs.entry.round]
      rfl

/-- Replaying the bytes is replaying the records. -/
theorem replayRecord_records (index : Nat) (recs : List (Rec ID))
    (st : Option (HardState ID) × List Entry) :
    (recs.map codecs.record).foldlM (codecs.replayRecord index) st =
      (recs.foldlM (replay index) st).mapError .load := by
  induction recs generalizing st with
  | nil => rfl
  | cons rec recs ih =>
      have step : codecs.replayRecord index st (codecs.record rec) =
          (replay index st rec).mapError .load := by
        rw [RecCodecs.replayRecord, decode_record]
        rfl
      rw [List.map_cons, List.foldlM_cons, List.foldlM_cons, step]
      cases replay index st rec with
      | error err => rfl
      | ok st' => exact ih st'

end Replay

section Keeping

/-- The directory holds the records of the disk and its snapshots, and no record is too long
to be read. -/
structure Keeps (checksum : UInt8 → Bytes → UInt32) (codecs : RecCodecs ID) (n : Nat) (dir : Dir)
    (d : Disk ID) (mem : Mem ID) : Prop where
  stores : Stores checksum dir.wal (d.wal.map codecs.record) []
  fits : (d.wal.map codecs.record).Fits
  snaps : dir.snaps = d.snaps
  head : ∀ hs, mem.hs = some hs → (codecs.record (.hardState hs)).Fits
  segmentSize : dir.wal.segmentSize = n

theorem appendLocked_segmentSize (w : WAL) (recs : List Record) :
    (w.appendLocked checksum recs).segmentSize = w.segmentSize := by
  rw [WAL.appendLocked]
  split <;> rfl

theorem rotate_segmentSize {tag seq : Nat} {head : List Record}
    (rotated : w.rotate checksum tag head = some (seq, w')) : w'.segmentSize = w.segmentSize := by
  rw [WAL.rotate] at rotated
  obtain ⟨last, -, made⟩ := Option.bind_eq_some_iff.mp rotated
  obtain ⟨w₁, created, same⟩ := Option.map_eq_some_iff.mp made
  rw [WAL.createSegment] at created
  split at created
  · cases created
  · cases created
    cases same
    exact appendLocked_segmentSize _ head

/-- The size of a segment file is that of its records. -/
theorem length_encode (recs : List (Rec ID)) (n : Nat) :
    (Wal.encode checksum (recs.map codecs.record)).length =
      (recs.map (codecs.options n).size).sum := by
  induction recs with
  | nil => rfl
  | cons rec recs ih =>
      rw [List.map_cons, List.map_cons, List.sum_cons, ← ih, Wal.encode, List.flatMap_cons,
        List.length_append, Wal.length_bytes]
      rfl

theorem shouldRotate_eq (h : Keeps checksum codecs n dir d mem) :
    dir.wal.shouldRotate = d.shouldRotate (codecs.options n) := by
  have size := h.stores.offset
  rw [List.append_nil] at size
  rw [WAL.shouldRotate, Disk.shouldRotate, h.stores.size, size, h.segmentSize, ← length_encode]
  rfl

theorem append_keeps (h : Keeps checksum codecs n dir d mem) {recs : List (Rec ID)}
    (new : ∀ rec ∈ recs, (codecs.record rec).Fits) :
    Keeps checksum codecs n
      { dir with wal := dir.wal.appendLocked checksum (recs.map codecs.record) }
      (d.applyAll (recs.map .append)) mem := by
  rw [applyAll_append_records]
  refine ⟨?_, ?_, h.snaps, h.head, (appendLocked_segmentSize _ _).trans h.segmentSize⟩
  · dsimp only
    rw [Journal.map_append]
    exact Wal.append_stores h.stores _
  · dsimp only
    rw [Journal.map_append]
    refine Wal.exec_fits (.append (recs.map codecs.record)) h.fits fun r hr => ?_
    obtain ⟨rec, there, rfl⟩ := List.mem_map.mp hr
    exact new rec there

theorem rotate_keeps (h : Keeps checksum codecs n dir d mem) :
    ∃ dir', rotateDir checksum codecs dir mem = some dir' ∧
      Keeps checksum codecs n dir' (d.applyAll mem.rotateLocked) mem := by
  have records : (mem.hs.toList.map Rec.hardState).map codecs.record =
      mem.hs.toList.map fun hs => codecs.record (.hardState hs) := List.map_map
  obtain ⟨w', rotated, stores⟩ := Wal.rotate_stores h.stores (mem.lastIndex + 1)
    (mem.hs.toList.map fun hs => codecs.record (.hardState hs))
  refine ⟨{ dir with wal := w' }, ?_, ?_⟩
  · rw [rotateDir, rotated]
    rfl
  · rw [applyAll_rotateLocked]
    refine ⟨?_, ?_, h.snaps, h.head, (rotate_segmentSize rotated).trans h.segmentSize⟩
    · dsimp only
      rw [Journal.map_rotate, records]
      exact stores
    · dsimp only
      rw [Journal.map_rotate, records]
      refine Wal.exec_fits (.rotate _ _) h.fits fun r hr => ?_
      obtain ⟨hs, known, rfl⟩ := List.mem_map.mp hr
      exact h.head hs (Option.mem_toList.mp known)

/-- A collection removes the segments before one number, and the old snapshots. -/
theorem applyAll_gcLocked (ordered : d.wal.Ordered) (m : StoredMeta) :
    d.applyAll (d.gcLocked (some m)) =
      { wal := d.wal.removeBefore (removeBefore m.lastIncludedIndex m.minWalSegment
          (d.wal.segments.map (·.segment)).tail)
        snaps := d.snaps.filter (·.path ∉ (oldFiles m d.snaps).map (·.path)) } := by
  have sorted := closed_ordered ordered
  rw [Disk.gcLocked, applyAll_append, applyAll_remove sorted (filter_seq_split sorted _),
    applyAll_unlink]
  rfl

theorem gc_keeps (h : Keeps checksum codecs n dir d mem) (snapMeta : Option StoredMeta) :
    Keeps checksum codecs n (gcDir dir snapMeta) (d.applyAll (d.gcLocked snapMeta)) mem := by
  cases snapMeta with
  | none => exact h
  | some m =>
      have ordered : d.wal.Ordered := (Journal.map_ordered _ _).mp h.stores.ordered
      have segments : dir.wal.segments = d.wal.segments.map (·.segment) := by
        rw [h.stores.segments, Journal.map_names]
      rw [gcDir, segments, h.snaps, applyAll_gcLocked ordered]
      refine ⟨?_, ?_, rfl, h.head, h.segmentSize⟩
      · rw [Journal.map_removeBefore]
        exact Wal.removeBefore_stores h.stores _
      · rw [Journal.map_removeBefore]
        exact Wal.exec_fits (.removeBefore _) h.fits fun r hr => nomatch hr

theorem saved_hs_fits (h : Keeps checksum codecs n dir d mem) {hs : Option (HardState ID)}
    {entries : List Entry} (new : ∀ rec ∈ saveRecords hs entries, (codecs.record rec).Fits)
    (current : HardState ID) (known : (mem.saved hs entries).hs = some current) :
    (codecs.record (.hardState current)).Fits := by
  cases hs with
  | none => exact h.head current known
  | some given =>
      cases known
      exact new _ (List.mem_append_left _ (List.mem_singleton.mpr rfl))

theorem save_keeps (h : Keeps checksum codecs n dir d mem) {hs : Option (HardState ID)}
    {entries : List Entry} (new : ∀ rec ∈ saveRecords hs entries, (codecs.record rec).Fits) :
    ∃ dir', saveDir checksum codecs dir mem hs entries = some dir' ∧
      Keeps checksum codecs n dir' (d.applyAll (d.save (codecs.options n) mem hs entries))
        (mem.saved hs entries) := by
  have appended : Keeps checksum codecs n _ _ (mem.saved hs entries) :=
    { append_keeps h new with head := saved_hs_fits h new }
  have same := shouldRotate_eq appended
  rw [Disk.save, applyAll_append, Disk.rotateFull, saveDir, same]
  split
  · obtain ⟨dir', rotated, kept⟩ := rotate_keeps appended
    rw [rotated, applyAll_append]
    exact ⟨_, rfl, gc_keeps kept _⟩
  · exact ⟨_, rfl, appended⟩

/-- The segment that a snapshot names is the last one in the list of the log. -/
theorem keeps_last (h : Keeps checksum codecs n dir d mem) :
    dir.wal.segments.getLast? = some d.wal.active.segment := by
  rw [h.stores.segments, Journal.map_names, Journal.segments, List.map_append, List.map_singleton,
    List.getLast?_concat]

theorem publish_hs (mem : Mem ID) (m : StoredMeta) : (mem.publish m).hs = mem.hs := by
  rw [Mem.publish]
  split <;> rfl

theorem publish_keeps (h : Keeps checksum codecs n dir d mem) (file : SnapFile) :
    Keeps checksum codecs n (publishDir dir mem file).1
      ((d.apply (.rename file)).applyAll
        ((d.apply (.rename file)).gcLocked (mem.publish file.snapMeta).snapMeta))
      (mem.publish file.snapMeta) := by
  have renamed : Keeps checksum codecs n
      { dir with snaps := dir.snaps.filter (·.path ≠ file.path) ++ [file] }
      (d.apply (.rename file)) (mem.publish file.snapMeta) := by
    refine ⟨h.stores, h.fits, ?_, (publish_hs mem file.snapMeta).symm ▸ h.head, h.segmentSize⟩
    dsimp only
    rw [h.snaps]
    rfl
  exact gc_keeps renamed _

theorem snapshot_keeps (h : Keeps checksum codecs n dir d mem) (snapMeta : SnapshotMeta)
    (data : Bytes) (discardLog : Bool) :
    ∃ dir', snapshotDir checksum codecs dir mem snapMeta data discardLog =
        some (dir', (d.saveSnapshot mem snapMeta data discardLog).2) ∧
      Keeps checksum codecs n dir' (d.applyAll (d.saveSnapshot mem snapMeta data discardLog).1)
        (d.saveSnapshot mem snapMeta data discardLog).2 := by
  rw [snapshotDir, Disk.saveSnapshot, Disk.startSnapshot]
  by_cases stale : mem.snapMeta.any (snapMeta.lastIncludedIndex ≤ ·.lastIncludedIndex)
  · rw [if_pos stale, if_pos stale]
    exact ⟨dir, rfl, h⟩
  · rw [if_neg stale, if_neg stale]
    cases discardLog with
    | true =>
        have begun : Keeps checksum codecs n dir d
            { mem with lastIndex := snapMeta.lastIncludedIndex } :=
          ⟨h.stores, h.fits, h.snaps, h.head, h.segmentSize⟩
        obtain ⟨dir', rotated, kept⟩ := rotate_keeps begun
        dsimp only
        rw [if_pos rfl, if_pos rfl, rotated, Option.bind_some, keeps_last kept]
        refine ⟨_, rfl, ?_⟩
        dsimp only
        rw [applyAll_append, applyAll_append]
        exact publish_keeps kept ⟨{ snapMeta with minWalSegment := _ }, data⟩
    | false =>
        rw [if_neg (by decide), if_neg (by decide)]
        refine ⟨_, rfl, ?_⟩
        dsimp only
        rw [applyAll_append, applyAll_append]
        exact publish_keeps h ⟨{ snapMeta with minWalSegment := _ }, data⟩

/-- The records that a call brings. -/
def Call.recs : Call ID → List (Rec ID)
  | .save hs entries => saveRecords hs entries
  | .saveSnapshot _ _ _ => []

/-- A call does to the directory what its effects do to the disk. -/
theorem call_keeps (h : Keeps checksum codecs n dir d mem) {c : Call ID}
    (new : ∀ rec ∈ c.recs, (codecs.record rec).Fits) :
    ∃ dir', callDir checksum codecs dir mem c =
        some (dir', (d.call (codecs.options n) mem c).2) ∧
      Keeps checksum codecs n dir' (d.applyAll (d.call (codecs.options n) mem c).1)
        (d.call (codecs.options n) mem c).2 := by
  cases c with
  | save hs entries =>
      obtain ⟨dir', saved, kept⟩ := save_keeps h new
      refine ⟨dir', ?_, kept⟩
      rw [callDir, saved]
      rfl
  | saveSnapshot snapMeta data discardLog => exact snapshot_keeps h snapMeta data discardLog

end Keeping

section Runs

variable {opts : Options ID} {cur : Option SnapFile} {m m' : MemStorage ID}

/-- The directory and the in-memory storage after the same calls. -/
inductive Ran (checksum : UInt8 → Bytes → UInt32) (codecs : RecCodecs ID) (n : Nat) :
    Dir → Mem ID → MemStorage ID → Prop
  | fresh {w : WAL} {segmentSize : Int} (opened : WAL.openDir [] segmentSize = some w)
      (size : w.segmentSize = n) : Ran checksum codecs n { wal := w } {} {}
  | call {dir dir' : Dir} {mem mem' : Mem ID} {m m' : MemStorage ID} {c : Call ID}
      (h : Ran checksum codecs n dir mem m) (shaped : c.Shaped m)
      (fits : ∀ rec ∈ c.recs, (codecs.record rec).Fits) (same : m.performAll c.ops = some m')
      (returned : callDir checksum codecs dir mem c = some (dir', mem')) :
      Ran checksum codecs n dir' mem' m'

theorem ran_keeps (ran : Ran checksum codecs n dir mem m) :
    ∃ d, Called (codecs.options n) d mem m ∧ Keeps checksum codecs n dir d mem := by
  induction ran with
  | fresh opened size =>
      obtain ⟨w', opened', stores⟩ := Wal.open_fresh checksum _
      obtain rfl := Option.some.inj (opened.symm.trans opened')
      refine ⟨Disk.fresh, .fresh, stores, fun s hs r hr => ?_, rfl, fun hs none => ?_, size⟩
      · rw [List.mem_singleton.mp hs] at hr
        cases hr
      · cases none
  | call _ shaped fits same returned ih =>
      obtain ⟨d, called, kept⟩ := ih
      obtain ⟨dir', returned', kept'⟩ := call_keeps kept fits
      cases returned.symm.trans returned'
      exact ⟨_, .call called shaped same, kept'⟩

/-- A call on the files never fails. -/
theorem ran_returns (ran : Ran checksum codecs n dir mem m) {c : Call ID} (shaped : c.Shaped m)
    (fits : ∀ rec ∈ c.recs, (codecs.record rec).Fits) :
    ∃ dir' mem' m', callDir checksum codecs dir mem c = some (dir', mem') ∧
      m.performAll c.ops = some m' ∧ Ran checksum codecs n dir' mem' m' := by
  obtain ⟨d, called, kept⟩ := ran_keeps ran
  obtain ⟨dir', returned, -⟩ := call_keeps kept fits
  obtain ⟨m', same⟩ := called_performs called shaped
  exact ⟨dir', _, m', returned, same, .call ran shaped fits same returned⟩

/-- A store that has only been called has never been cut off. -/
theorem called_reachable (called : Called opts d mem m) : Reachable opts d mem := by
  induction called with
  | fresh => exact .fresh
  | call _ _ _ ih => exact .call ih _

theorem perform_hs {op : StorageOp ID} (performed : m.perform op = some m') :
    m'.hs = hardStateAfter m.hs [op] := by
  cases op with
  | hardState hs => cases performed; rfl
  | entry e =>
      rw [MemStorage.perform, MemStorage.appendLocked] at performed
      split at performed
      · cases performed; rfl
      · split at performed
        · cases performed
        · cases performed; rfl
  | snapshot snapMeta data discardLog =>
      cases performed
      rw [MemStorage.saveSnapshot]
      split <;> rfl

theorem hardStateAfter_cons (hs : Option (HardState ID)) (op : StorageOp ID)
    (ops : List (StorageOp ID)) :
    hardStateAfter hs (op :: ops) = hardStateAfter (hardStateAfter hs [op]) ops := by
  cases op with
  | hardState hs' => rfl
  | entry e => rfl
  | snapshot snapMeta data discardLog => rfl

theorem performAll_hs {ops : List (StorageOp ID)} (performed : m.performAll ops = some m') :
    m'.hs = hardStateAfter m.hs ops := by
  induction ops generalizing m with
  | nil => cases performed; rfl
  | cons op ops ih =>
      rw [MemStorage.performAll] at performed
      obtain ⟨mid, first, rest⟩ := Option.bind_eq_some_iff.mp performed
      rw [hardStateAfter_cons, ← perform_hs first]
      exact ih rest

theorem saveSnapshot_hs (d : Disk ID) (mem : Mem ID) (snapMeta : SnapshotMeta) (data : Bytes)
    (discardLog : Bool) : (d.saveSnapshot mem snapMeta data discardLog).2.hs = mem.hs := by
  rw [Disk.saveSnapshot]
  cases started : d.startSnapshot mem snapMeta data discardLog with
  | none => rfl
  | some result =>
      obtain ⟨-, -, -, -, same, -⟩ := startSnapshot_some started
      exact (publish_hs _ _).trans same

theorem called_hs (called : Called opts d mem m) : mem.hs = m.hs := by
  induction called with
  | fresh => rfl
  | @call _ _ _ _ c _ _ same ih =>
      rw [performAll_hs same, ← ih]
      cases c with
      | save hs entries =>
          rw [Call.ops, save_ops, hardStateAfter_records, lastHardState_saveRecords]
          exact saved_hs hs entries
      | saveSnapshot snapMeta data discardLog =>
          exact saveSnapshot_hs _ _ snapMeta data discardLog

/-- What is found in a directory: the records of the log, and what `Load` returns for them,
compared with what the in-memory storage holds. -/
structure Recovered (checksum : UInt8 → Bytes → UInt32) (codecs : RecCodecs ID) (dir : Dir)
    (recs : List (Rec ID)) (m : MemStorage ID) (loaded : Loaded ID) : Prop where
  read : readDir checksum dir = .ok (recs.map codecs.record)
  load : (loadDir checksum codecs dir).1 = .ok loaded
  replayed : recs.foldlM (replay m.snapIndex) (none, []) = .ok (loaded.hardState, loaded.entries)
  hardState : loaded.hardState = m.hs
  snapMeta : loaded.snapMeta.map (·.toSnapshotMeta) = m.snapMeta
  data : loaded.snapshotData = m.snapshot
  entries : loaded.entries = m.entries ∨ m.entries = []

/-- A directory that stores what the disk holds, with a torn record at its end or without one. -/
theorem stores_recovered {tail : Bytes}
    (stores : Stores checksum w (d.wal.map codecs.record) tail)
    (fits : (d.wal.map codecs.record).Fits)
    (torn : tail = [] ∨ Wal.readRecord checksum tail = .torn) (holds : Holds d cur m.entries)
    (states : States d (minSegment cur) m.hs) (shown : Shows m cur) :
    ∃ loaded, Recovered checksum codecs ⟨w, d.snaps⟩ (d.wal.records (minSegment cur)) m loaded := by
  have newest : loadNewestSnapshot d.snaps = cur := newest_eq holds.newest
  obtain ⟨entries, loads, agrees, -⟩ := load_tracks holds.newest holds.tracks
  obtain ⟨st, replayed, result⟩ := load_ok holds.newest loads
  have hs : st.1 = m.hs := by
    rw [(replay_result replayed).1, Option.or_none]
    exact states
  have same : entries = st.2 := congrArg (fun r => r.1.entries) result
  have delivered : ((d.wal.map codecs.record).records (minSegment cur)).foldlM
      (codecs.replayRecord (snapIndex cur)) (none, []) = .ok st := by
    rw [Journal.map_records, replayRecord_records, replayed]
    rfl
  obtain ⟨w', loaded, -⟩ := Wal.readAll_crashed stores fits torn holds.known delivered
  obtain ⟨w'', read, -⟩ := Wal.readAll_crashed stores fits torn holds.known
    (Wal.collect_all ((d.wal.map codecs.record).records (minSegment cur)) [])
  refine ⟨(loadedWith cur st).1, ?_, ?_, ?_, hs, ?_, shown.data.symm,
    agrees.imp_left fun live => (live.trans same).symm⟩
  · rw [readDir, newest, read, Journal.map_records]
    rfl
  · rw [loadDir, newest, loaded]
    rfl
  · rw [shown.snapIndex]
    exact replayed
  · rw [shown.snapMeta, loadedWith, Option.map_map]
    rfl

end Runs

section Samples

deriving instance Countable for EntryType, Entry, HardState

/-- Encodings that write three entries of term 1 and one hard state in a few bytes. -/
noncomputable def shortRecords : RecCodecs Nat where
  entry := (((Codec.any Entry).short (blank 3 1)).short (blank 2 1)).short (blank 1 1)
  hardState := (Codec.any (HardState Nat)).short ⟨1, some 4⟩

theorem shortRecords_entries :
    shortRecords.record (.entry (blank 1 1)) = ⟨recEntry, [0]⟩ ∧
      shortRecords.record (.entry (blank 2 1)) = ⟨recEntry, [1, 0]⟩ ∧
      shortRecords.record (.entry (blank 3 1)) = ⟨recEntry, [1, 1, 0]⟩ ∧
      shortRecords.record (.hardState ⟨1, some 4⟩) = ⟨recHardState, [0]⟩ := by
  simp [RecCodecs.record, shortRecords, Codec.short, blank]

end Samples

end EdgeKV.RaftStore
