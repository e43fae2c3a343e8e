import EdgeKV.Raft.Types
import Mathlib.Data.List.Basic

/-!
The in-memory log. Entries up to and including `snapIndex` have been folded into
a snapshot and are gone; `entries[k]` holds log index `snapIndex + 1 + k`. The
operations that panic on a misuse in the source return `none` there.
-/
namespace EdgeKV

structure RaftLog where
  snapIndex : Nat := 0
  snapTerm : Nat := 0
  entries : List Entry := []
  deriving DecidableEq, Repr

namespace RaftLog

variable (l : RaftLog)

def lastIndex : Nat := l.snapIndex + l.entries.length

def lastTerm : Nat := (l.entries.getLast?.map Entry.term).getD l.snapTerm

/-- The term of the entry at `index`; `none` if the index has been compacted
away or lies beyond the end of the log. -/
def term (index : Nat) : Option Nat :=
  if index = l.snapIndex then some l.snapTerm
  else if index < l.snapIndex ∨ l.lastIndex < index then none
  else l.entries[index - l.snapIndex - 1]?.map Entry.term

/-- The entries with `lo ≤ index ≤ hi`. -/
def slice (lo hi : Nat) : Option (List Entry) :=
  if hi < lo then some []
  else if lo ≤ l.snapIndex ∨ l.lastIndex < hi then none
  else some ((l.entries.drop (lo - l.snapIndex - 1)).take (hi - lo + 1))

def append (l : RaftLog) : List Entry → Option RaftLog
  | [] => some l
  | e :: es =>
      if e.index = l.lastIndex + 1 then append { l with entries := l.entries ++ [e] } es
      else none

/-- Drops the entry at `index` and everything after it. -/
def truncateFrom (index : Nat) : Option RaftLog :=
  if index ≤ l.snapIndex then none
  else if l.lastIndex < index then some l
  else some { l with entries := l.entries.take (index - l.snapIndex - 1) }

/-- The lowest index of the given term, scanning backwards from `start`. -/
def firstIndexOfTerm (l : RaftLog) (term : Nat) : Nat → Nat
  | 0 => 0
  | i + 1 =>
      if l.snapIndex + 1 < i + 1 ∧ (l.term i).getD 0 = term then firstIndexOfTerm l term i
      else i + 1

/-- The scan of `lastIndexOfTerm`, from the last entry backwards. -/
def lastIndexOfTermIn (term : Nat) : List Entry → Nat
  | [] => 0
  | e :: es =>
      if e.term = term then e.index
      else if e.term < term then 0
      else lastIndexOfTermIn term es

/-- The highest index whose entry has the given term, or 0. -/
def lastIndexOfTerm (term : Nat) : Nat := lastIndexOfTermIn term l.entries.reverse

/-- Discards the entries up to and including `index`. -/
def compactTo (index term : Nat) : RaftLog :=
  if index ≤ l.snapIndex then l
  else if l.lastIndex ≤ index then { snapIndex := index, snapTerm := term, entries := [] }
  else { snapIndex := index, snapTerm := term, entries := l.entries.drop (index - l.snapIndex) }

/-- An empty log that starts after a snapshot. -/
def reset (index term : Nat) : RaftLog :=
  { snapIndex := index, snapTerm := term, entries := [] }

end RaftLog
end EdgeKV
