import EdgeKV.Wal.Segment
import Mathlib.Data.List.Sort

/-!
The segmented write-ahead log over its directory. A handle holds the list of segments it
knows, the open file of the last one with its write offset, and a counter of that file's
size. Every call is modelled as one that returns; the file system itself does not fail.
-/
namespace EdgeKV.Wal

/-- The numbers in the name of a segment file. -/
structure Segment where
  seq : Nat
  tag : Nat
  deriving DecidableEq, Repr

structure File where
  segment : Segment
  bytes : Bytes
  deriving DecidableEq, Repr

def defaultSegmentSize : Nat := 16 <<< 20

structure WAL where
  files : List File
  segments : List Segment := []
  active : Option Segment := none
  offset : Nat := 0
  size : Nat := 0
  segmentSize : Nat
  deriving DecidableEq, Repr

inductive WalError (ε : Type)
  | corrupt (segment : Segment) (offset : Nat)
  | missing (segment : Segment)
  | failed (err : ε)
  deriving DecidableEq, Repr

/-- Writing `buf` at an offset of a file; a gap is filled with zeros. -/
def writeAt (offset : Nat) (buf b : Bytes) : Bytes :=
  b.take offset ++ (List.replicate (offset - b.length) 0 ++ (buf ++ b.drop (offset + buf.length)))

def truncate (size : Nat) (b : Bytes) : Bytes :=
  b.take size ++ List.replicate (size - b.length) 0

def listSegments (files : List File) : List Segment :=
  (files.map File.segment).insertionSort fun a b => a.seq ≤ b.seq

namespace WAL

variable (w : WAL)

def updateActive (f : Bytes → Bytes) : List File :=
  w.files.map fun x => if some x.segment = w.active then { x with bytes := f x.bytes } else x

/-- The file must not exist yet. -/
def createSegment (seq tag : Nat) : Option WAL :=
  if w.files.any (·.segment = ⟨seq, tag⟩) then none
  else
    some
      { w with
        files := w.files ++ [⟨⟨seq, tag⟩, []⟩]
        segments := w.segments ++ [⟨seq, tag⟩]
        active := some ⟨seq, tag⟩
        offset := 0
        size := 0 }

/-- `Open`, on what the directory holds. -/
def openDir (files : List File) (segmentSize : Int) : Option WAL :=
  let segments := listSegments files
  let w : WAL :=
    { files
      segments
      segmentSize := if segmentSize ≤ 0 then defaultSegmentSize else segmentSize.toNat }
  match segments.getLast? with
  | none => w.createSegment 1 0
  | some last =>
      (files.find? (·.segment = last)).map fun f =>
        { w with active := some last, offset := f.bytes.length, size := f.bytes.length }

def shouldRotate : Bool := w.segmentSize ≤ w.size

/-- `RemoveBefore`; the last segment is never deleted. -/
def removeBefore (seq : Nat) : WAL :=
  let removed := w.segments.dropLast.filter (·.seq < seq)
  { w with
    files := w.files.filter (·.segment ∉ removed)
    segments := w.segments.dropLast.filter (seq ≤ ·.seq) ++ w.segments.getLast?.toList }

/-- The repair of a torn tail: the file, the write offset and the size counter. -/
def repair (goodOffset : Nat) : WAL :=
  { w with
    files := w.updateActive (truncate goodOffset)
    offset := goodOffset
    size := goodOffset }

section Records

variable (checksum : UInt8 → Bytes → UInt32) {σ ε : Type}

def appendLocked (recs : List Record) : WAL :=
  if recs = [] then w
  else
    let buf := encode checksum recs
    { w with
      files := w.updateActive (writeAt w.offset buf)
      offset := w.offset + buf.length
      size := w.size + buf.length }

/-- `Rotate`: the sequence number of the new segment, which starts with `head`. -/
def rotate (tag : Nat) (head : List Record) : Option (Nat × WAL) :=
  w.segments.getLast?.bind fun last =>
    (w.createSegment (last.seq + 1) tag).map fun w' =>
      (last.seq + 1, w'.appendLocked checksum head)

/-- The loop of `ReadAll` over the segments that are left. -/
def readSegments (minSeq : Nat) (fn : σ → Record → Except ε σ) (w : WAL) :
    σ → List Segment → Except (WalError ε) σ × WAL
  | st, [] => (.ok st, w)
  | st, seg :: rest =>
      if seg.seq < minSeq then readSegments minSeq fn w st rest
      else match w.files.find? (·.segment = seg) with
        | none => (.error (.missing seg), w)
        | some file =>
            let scan := readSegment checksum fn st file.bytes
            match scan.error with
            | none => readSegments minSeq fn w scan.state rest
            | some (.failed err) => (.error (.failed err), w)
            | some .torn =>
                if rest ≠ [] then (.error (.corrupt seg scan.offset), w)
                else (.ok scan.state, w.repair scan.offset)

def readAll (minSeq : Nat) (fn : σ → Record → Except ε σ) (st : σ) : Except (WalError ε) σ × WAL :=
  readSegments checksum minSeq fn w st w.segments

end Records
end WAL

end EdgeKV.Wal
