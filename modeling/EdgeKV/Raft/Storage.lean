import EdgeKV.Raft.Types
import Mathlib.Data.List.Basic

/-!
The storage contract, in the form of the repository's own in-memory storage.
A `Save` is a list of records, the hard state first, and a crash inside it
leaves a prefix of them; a `SaveSnapshot` takes effect as a whole.
-/
namespace EdgeKV

variable {ID : Type}

structure MemStorage (ID : Type) where
  hs : Option (HardState ID) := none
  snapMeta : Option SnapshotMeta := none
  snapshot : Bytes := []
  entries : List Entry := []
  deriving DecidableEq, Repr

/-- One durable effect on a storage. -/
inductive StorageOp (ID : Type)
  | hardState (hs : HardState ID)
  | entry (e : Entry)
  | snapshot (snapMeta : SnapshotMeta) (data : Bytes) (discardLog : Bool)
  deriving DecidableEq, Repr

/-- The effects of `Save`, in the order in which they become durable. -/
def save (hs : Option (HardState ID)) (entries : List Entry) : List (StorageOp ID) :=
  hs.toList.map .hardState ++ entries.map .entry

namespace MemStorage

variable (m : MemStorage ID)

def snapIndex : Nat := (m.snapMeta.map (·.lastIncludedIndex)).getD 0

def snapTerm : Nat := (m.snapMeta.map (·.lastIncludedTerm)).getD 0

/-- The index of the first entry that is not inside the snapshot. -/
def first : Nat := (m.snapMeta.map (·.lastIncludedIndex + 1)).getD 1

/-- The term and vote a node starts with: none were given before the first `Save`. -/
def hardState : HardState ID := m.hs.getD { term := 0, votedFor := none }

/-- An existing index replaces the tail. On an index that would leave a gap the
slice expression panics, unless the slice has capacity to spare; here it always does. -/
def appendLocked (e : Entry) : Option (MemStorage ID) :=
  if e.index < m.first then some m
  else if m.entries.length < e.index - m.first then none
  else some { m with entries := m.entries.take (e.index - m.first) ++ [e] }

def saveSnapshot (snapMeta : SnapshotMeta) (data : Bytes) (discardLog : Bool) : MemStorage ID :=
  if m.snapMeta.any (snapMeta.lastIncludedIndex ≤ ·.lastIncludedIndex) then m
  else
    let drop := snapMeta.lastIncludedIndex + 1 - m.first
    { m with
      snapMeta := some snapMeta
      snapshot := data
      entries := if discardLog ∨ m.entries.length ≤ drop then [] else m.entries.drop drop }

def perform : StorageOp ID → Option (MemStorage ID)
  | .hardState hs => some { m with hs := some hs }
  | .entry e => m.appendLocked e
  | .snapshot snapMeta data discardLog => some (m.saveSnapshot snapMeta data discardLog)

def performAll (m : MemStorage ID) : List (StorageOp ID) → Option (MemStorage ID)
  | [] => some m
  | op :: ops => (m.perform op).bind fun m' => performAll m' ops

end MemStorage

theorem first_eq (s : MemStorage ID) : s.first = s.snapIndex + 1 := by
  cases h : s.snapMeta <;> simp [MemStorage.first, MemStorage.snapIndex, h]

theorem performAll_append (s : MemStorage ID) (ops ops' : List (StorageOp ID)) :
    s.performAll (ops ++ ops') = (s.performAll ops).bind fun m => m.performAll ops' := by
  induction ops generalizing s with
  | nil => rfl
  | cons op ops ih =>
      simp only [List.cons_append, MemStorage.performAll]
      cases s.perform op with
      | none => rfl
      | some m => exact ih m

end EdgeKV
