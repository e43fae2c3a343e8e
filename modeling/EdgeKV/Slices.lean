import EdgeKV.Bytes

/-!
Slices of byte strings with their bounds checked, and what they are on bytes that are put
together from parts. A slice out of range is the panic of the program that takes it.
-/
namespace EdgeKV.Slices

/-- Why a decoder stops: it rejects its input, or it takes a slice out of range. -/
inductive Fault
  | rejected
  | outOfRange
  deriving DecidableEq, Repr

variable {α : Type}

def sliceTo (b : Bytes) (n : Nat) : Except Fault Bytes :=
  if n ≤ b.length then .ok (b.take n) else .error .outOfRange

def sliceFrom (b : Bytes) (n : Nat) : Except Fault Bytes :=
  if n ≤ b.length then .ok (b.drop n) else .error .outOfRange

/-- The number in the first `k` bytes. -/
def readUint (k : Nat) (b : Bytes) : Except Fault Nat :=
  (sliceTo b k).map ofLittleEndian

def ensure (p : Prop) [Decidable p] : Except Fault Unit := if p then .ok () else .error .rejected

def accept : Option α → Except Fault α
  | none => .error .rejected
  | some a => .ok a

theorem sliceTo_append (x y : Bytes) : sliceTo (x ++ y) x.length = .ok x := by
  rw [sliceTo, if_pos (by simp), List.take_left]

theorem sliceFrom_append (x y : Bytes) : sliceFrom (x ++ y) x.length = .ok y := by
  rw [sliceFrom, if_pos (by simp), List.drop_left]

theorem readUint_append (x y : Bytes) : readUint x.length (x ++ y) = .ok (ofLittleEndian x) := by
  rw [readUint, sliceTo_append]
  rfl

theorem ensure_pos {p : Prop} [Decidable p] (h : p) : ensure p = .ok () := if_pos h

theorem ensure_neg {p : Prop} [Decidable p] (h : ¬ p) : ensure p = .error .rejected := if_neg h

/-- Bytes that are long enough, cut in two. -/
theorem exists_append {b : Bytes} {n : Nat} (h : n ≤ b.length) : ∃ x y, b = x ++ y ∧ x.length = n :=
  ⟨b.take n, b.drop n, (List.take_append_drop n b).symm, List.length_take_of_le h⟩

theorem exists_append_end {b : Bytes} {n : Nat} (h : n ≤ b.length) :
    ∃ x y, b = x ++ y ∧ y.length = n := by
  refine ⟨b.take (b.length - n), b.drop (b.length - n), (List.take_append_drop _ b).symm, ?_⟩
  rw [List.length_drop]
  omega

end EdgeKV.Slices
