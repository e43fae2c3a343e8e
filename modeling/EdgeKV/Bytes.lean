import Mathlib.Algebra.Ring.Nat
import Mathlib.Data.List.Basic

/-!
Byte strings, and numbers in little-endian byte order.
-/
namespace EdgeKV

abbrev Bytes := List UInt8

/-- The lowest `k` bytes of `n`, lowest first. -/
def littleEndian : Nat → Nat → Bytes
  | 0, _ => []
  | k + 1, n => UInt8.ofNat n :: littleEndian k (n / 256)

def ofLittleEndian : Bytes → Nat
  | [] => 0
  | b :: bs => b.toNat + 256 * ofLittleEndian bs

@[simp] theorem length_littleEndian (k n : Nat) : (littleEndian k n).length = k := by
  induction k generalizing n with
  | zero => rfl
  | succ k ih => simp [littleEndian, ih]

theorem ofLittleEndian_littleEndian (k n : Nat) :
    ofLittleEndian (littleEndian k n) = n % 256 ^ k := by
  induction k generalizing n with
  | zero => simp [littleEndian, ofLittleEndian, Nat.mod_one]
  | succ k ih =>
      have grow : 256 ^ (k + 1) = 256 * 256 ^ k := by rw [Nat.pow_succ, Nat.mul_comm]
      rw [littleEndian, ofLittleEndian, ih, UInt8.toNat_ofNat', grow, Nat.mod_mul]

/-- A number that fits into its field is read back. -/
theorem ofLittleEndian_of_lt {k n : Nat} (fits : n < 256 ^ k) :
    ofLittleEndian (littleEndian k n) = n := by
  rw [ofLittleEndian_littleEndian, Nat.mod_eq_of_lt fits]

theorem littleEndian_ofLittleEndian (b : Bytes) : littleEndian b.length (ofLittleEndian b) = b := by
  induction b with
  | nil => rfl
  | cons x b ih =>
      have small : x.toNat < 256 := x.toNat_lt
      have high : (x.toNat + 256 * ofLittleEndian b) / 256 = ofLittleEndian b := by omega
      have low : UInt8.ofNat (x.toNat + 256 * ofLittleEndian b) = x := by
        apply UInt8.toNat_inj.mp
        rw [UInt8.toNat_ofNat']
        omega
      rw [List.length_cons, ofLittleEndian, littleEndian, high, low, ih]

end EdgeKV
