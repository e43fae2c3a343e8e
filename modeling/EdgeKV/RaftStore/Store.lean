import EdgeKV.Raft.Storage
import EdgeKV.Wal.Journal

/-!
The durable storage of a replica: hard state and log entries in the write-ahead log, the
snapshots in files of their own. What a call does is a list of effects on the file system,
and a crash falls between two of them. Temporary files are left out, since they are deleted
by the next `Load` and never read.
-/
namespace EdgeKV.RaftStore

open Wal (Segment LogSegment Journal)

variable {ID : Type}

/-- A record of the log, by its type. -/
inductive Rec (ID : Type)
  | hardState (hs : HardState ID)
  | entry (e : Entry)
  deriving DecidableEq, Repr

/-- The metadata of a snapshot as its file holds it. -/
structure StoredMeta extends SnapshotMeta where
  minWalSegment : Nat := 0
  deriving DecidableEq, Repr

structure SnapFile where
  snapMeta : StoredMeta
  data : Bytes
  deriving DecidableEq, Repr

/-- The numbers in the name of the file. -/
def SnapFile.path (f : SnapFile) : SnapshotMeta := f.snapMeta.toSnapshotMeta

def SnapFile.index (f : SnapFile) : Nat := f.snapMeta.lastIncludedIndex

structure Disk (ID : Type) where
  wal : Journal (Rec ID)
  snaps : List SnapFile := []
  deriving DecidableEq, Repr

/-- One effect on the file system. Records of one append become durable in order. -/
inductive Effect (ID : Type)
  | append (rec : Rec ID)
  | create (tag : Nat)
  | remove (seq : Nat)
  | rename (file : SnapFile)
  | unlink (path : SnapshotMeta)
  deriving DecidableEq, Repr

/-- The fields of an open `Store`. -/
structure Mem (ID : Type) where
  hs : Option (HardState ID) := none
  snapMeta : Option StoredMeta := none
  lastIndex : Nat := 0
  deriving DecidableEq, Repr

structure Loaded (ID : Type) where
  hardState : Option (HardState ID) := none
  snapMeta : Option StoredMeta := none
  snapshotData : Bytes := []
  entries : List Entry := []
  deriving DecidableEq, Repr

inductive LoadError
  | gap (entries snapIndex index : Nat)
  deriving DecidableEq, Repr

/-- The size of a record in its segment file, and the size at which segments rotate. -/
structure Options (ID : Type) where
  size : Rec ID → Nat
  segmentSize : Nat

/-- `snapshotFiles`: the names have a fixed width, so their order is that of the numbers. -/
def snapshotFiles (snaps : List SnapFile) : List SnapFile :=
  snaps.insertionSort fun a b =>
    a.index < b.index ∨
      (a.index = b.index ∧ a.path.lastIncludedTerm ≤ b.path.lastIncludedTerm)

def loadNewestSnapshot (snaps : List SnapFile) : Option SnapFile := (snapshotFiles snaps).getLast?

/-- The files that `gcLocked` removes: all but the current one and those above it. -/
def oldFiles (m : StoredMeta) (snaps : List SnapFile) : List SnapFile :=
  (snapshotFiles snaps).filter fun f => f.path ≠ m.toSnapshotMeta ∧ f.index ≤ m.lastIncludedIndex

namespace Disk

variable (d : Disk ID)

def apply : Effect ID → Disk ID
  | .append rec => { d with wal := d.wal.append [rec] }
  | .create tag => { d with wal := d.wal.rotate tag [] }
  | .remove seq =>
      { d with wal := { d.wal with closed := d.wal.closed.filter (·.segment.seq ≠ seq) } }
  | .rename file => { d with snaps := d.snaps.filter (·.path ≠ file.path) ++ [file] }
  | .unlink path => { d with snaps := d.snaps.filter (·.path ≠ path) }

def applyAll (effects : List (Effect ID)) : Disk ID := effects.foldl apply d

/-- The newest snapshot on the disk. -/
def newest : Option SnapFile := loadNewestSnapshot d.snaps

end Disk

/-- Replaying one record on the hard state and the entries found so far. -/
def replay (snapIndex : Nat) (st : Option (HardState ID) × List Entry) :
    Rec ID → Except LoadError (Option (HardState ID) × List Entry)
  | .hardState hs => .ok (some hs, st.2)
  | .entry e =>
      if e.index ≤ snapIndex then .ok st
      else if st.2.length < e.index - snapIndex - 1 then
        .error (.gap st.2.length snapIndex e.index)
      else .ok (st.1, st.2.take (e.index - snapIndex - 1) ++ [e])

/-- The loop of `gcLocked` over the segments that follow the first. -/
def removeBefore (index : Nat) : Nat → List Segment → Nat
  | seq, [] => seq
  | seq, seg :: rest => if index + 1 < seg.tag then seq else removeBefore index (max seq seg.seq) rest

namespace Disk

variable (d : Disk ID)

def gcLocked : Option StoredMeta → List (Effect ID)
  | none => []
  | some m =>
      let seq := removeBefore m.lastIncludedIndex m.minWalSegment
        ((d.wal.segments.map (·.segment)).tail)
      let removed := d.wal.closed.filter (·.segment.seq < seq)
      removed.map (fun s => .remove s.segment.seq) ++
        (oldFiles m d.snaps).map (fun f => .unlink f.path)

/-- `Load` up to its last step, which is `gcLocked`. -/
def load : Except LoadError (Loaded ID × Mem ID) :=
  let file := d.newest
  let snapIndex := (file.map (·.index)).getD 0
  let minSeq := (file.map (·.snapMeta.minWalSegment)).getD 0
  ((d.wal.records minSeq).foldlM (replay snapIndex) (none, [])).map fun st =>
    ({ hardState := st.1
       snapMeta := file.map (·.snapMeta)
       snapshotData := (file.map (·.data)).getD []
       entries := st.2 },
     { hs := st.1, snapMeta := file.map (·.snapMeta), lastIndex := snapIndex + st.2.length })

end Disk

namespace Mem

variable (mem : Mem ID)

/-- A new segment starts with the current hard state. -/
def rotateLocked : List (Effect ID) :=
  .create (mem.lastIndex + 1) :: mem.hs.toList.map fun hs => .append (.hardState hs)

/-- The fields after the append of `Save`. -/
def saved (hs : Option (HardState ID)) (entries : List Entry) : Mem ID :=
  { mem with
    hs := hs <|> mem.hs
    lastIndex := (entries.getLast?.map (·.index)).getD mem.lastIndex }

def publish (m : StoredMeta) : Mem ID :=
  if mem.snapMeta.all (·.lastIncludedIndex < m.lastIncludedIndex) then
    { mem with snapMeta := some m }
  else mem

end Mem

def saveRecords (hs : Option (HardState ID)) (entries : List Entry) : List (Rec ID) :=
  hs.toList.map .hardState ++ entries.map .entry

namespace Disk

variable (d : Disk ID) (opts : Options ID) (mem : Mem ID)

def shouldRotate : Bool := opts.segmentSize ≤ (d.wal.active.records.map opts.size).sum

/-- The end of `Save`: a full segment is sealed, and old ones are collected. -/
def rotateFull : List (Effect ID) :=
  if d.shouldRotate opts then
    mem.rotateLocked ++ (d.applyAll mem.rotateLocked).gcLocked mem.snapMeta
  else []

/-- The effects of `Save`. -/
def save (hs : Option (HardState ID)) (entries : List Entry) : List (Effect ID) :=
  let appended := (saveRecords hs entries).map .append
  appended ++ (d.applyAll appended).rotateFull opts (mem.saved hs entries)

/-- `SaveSnapshot` under its first lock: what it does to the log, and the file to be
written. Nothing happens for a stale snapshot. -/
def startSnapshot (snapMeta : SnapshotMeta) (data : Bytes) (discardLog : Bool) :
    Option (List (Effect ID) × Mem ID × SnapFile) :=
  if mem.snapMeta.any (snapMeta.lastIncludedIndex ≤ ·.lastIncludedIndex) then none
  else if discardLog then
    let mem' := { mem with lastIndex := snapMeta.lastIncludedIndex }
    let seq := (d.applyAll mem'.rotateLocked).wal.active.segment.seq
    some (mem'.rotateLocked, mem', ⟨{ snapMeta with minWalSegment := seq }, data⟩)
  else
    let seq := (mem.snapMeta.map (·.minWalSegment)).getD 0
    some ([], mem, ⟨{ snapMeta with minWalSegment := seq }, data⟩)

/-- `SaveSnapshot` with nothing in between: all its effects, and the fields after it. -/
def saveSnapshot (snapMeta : SnapshotMeta) (data : Bytes) (discardLog : Bool) :
    List (Effect ID) × Mem ID :=
  match d.startSnapshot mem snapMeta data discardLog with
  | none => ([], mem)
  | some (effects, mem', file) =>
      let written := effects ++ [.rename file]
      let published := mem'.publish file.snapMeta
      (written ++ (d.applyAll written).gcLocked published.snapMeta, published)

/-- What `Open` finds or makes in an empty directory. -/
def fresh : Disk ID where
  wal := ⟨[], ⟨⟨1, 0⟩, []⟩⟩

end Disk

/-- A call of the storage interface. -/
inductive Call (ID : Type)
  | save (hs : Option (HardState ID)) (entries : List Entry)
  | saveSnapshot (snapMeta : SnapshotMeta) (data : Bytes) (discardLog : Bool)
  deriving DecidableEq, Repr

/-- The effects of a call and the fields after it. -/
def Disk.call (d : Disk ID) (opts : Options ID) (mem : Mem ID) : Call ID → List (Effect ID) × Mem ID
  | .save hs entries => (d.save opts mem hs entries, mem.saved hs entries)
  | .saveSnapshot snapMeta data discardLog => d.saveSnapshot mem snapMeta data discardLog

end EdgeKV.RaftStore
