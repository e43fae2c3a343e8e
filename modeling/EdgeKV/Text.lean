import Mathlib.Algebra.Ring.Nat
import Mathlib.Data.List.Basic

/-!
Decimal numbers in texts, as `strconv` reads and `fmt` prints them.
-/
namespace EdgeKV.Text

/-- `unicode.IsSpace` -/
def isSpace (c : Char) : Bool :=
  c.toNat ∈ [9, 10, 11, 12, 13, 32, 0x85, 0xa0, 0x1680, 0x2028, 0x2029, 0x202f, 0x205f, 0x3000] ||
    0x2000 ≤ c.toNat && c.toNat ≤ 0x200a

def trimSpace (s : List Char) : List Char :=
  ((s.dropWhile isSpace).reverse.dropWhile isSpace).reverse

/-- The number that a text of digits stands for. -/
def numeral (s : List Char) : Option Nat :=
  if s ≠ [] ∧ s.all Char.isDigit then some (Nat.ofDigitChars 10 s 0) else none

/-- `ParseUint` in base 10 with 64 bits. -/
def parseUint (s : List Char) : Option UInt64 :=
  (numeral s).bind fun n => if n < 2 ^ 64 then some (UInt64.ofNat n) else none

/-- `Atoi` on a platform of 64 bits. -/
def atoi : List Char → Option Int
  | '-' :: s => (numeral s).bind fun n => if n ≤ 2 ^ 63 then some (-n) else none
  | '+' :: s => (numeral s).bind fun n => if n < 2 ^ 63 then some n else none
  | s => (numeral s).bind fun n => if n < 2 ^ 63 then some n else none

theorem toList_toString (n : Nat) : (toString n).toList = Nat.toDigits 10 n := by
  rw [Nat.toString_eq_ofList_toDigits, String.toList_ofList]

theorem isDigit_toDigits {n : Nat} {c : Char} (h : c ∈ Nat.toDigits 10 n) : c.isDigit = true :=
  Nat.isDigit_of_mem_toDigits (by omega) (by omega) h

theorem numeral_toDigits (n : Nat) : numeral (Nat.toDigits 10 n) = some n := by
  have all : (Nat.toDigits 10 n).all Char.isDigit = true :=
    List.all_eq_true.mpr fun _ h => isDigit_toDigits h
  rw [numeral, if_pos ⟨Nat.toDigits_ne_nil, all⟩, Nat.ofDigitChars_ten_toDigits]

theorem atoi_toDigits {n : Nat} (small : n < 2 ^ 63) : atoi (Nat.toDigits 10 n) = some (n : Int) := by
  have unsigned (c : Char) (digit : c.isDigit = false) : c ∉ Nat.toDigits 10 n := by
    intro h
    rw [isDigit_toDigits h] at digit
    cases digit
  have value := numeral_toDigits n
  generalize Nat.toDigits 10 n = s at unsigned value
  rw [atoi.eq_def]
  split
  · exact absurd List.mem_cons_self (unsigned '-' rfl)
  · exact absurd List.mem_cons_self (unsigned '+' rfl)
  · rw [value, Option.bind_some, if_pos small]

theorem isSpace_digit {c : Char} (h : c.isDigit = true) : isSpace c = false := by
  obtain ⟨low, high⟩ := Char.isDigit_iff_toNat.mp h
  change 48 ≤ c.toNat at low
  change c.toNat ≤ 57 at high
  have outside : c.toNat ∉ [9, 10, 11, 12, 13, 32, 0x85, 0xa0, 0x1680, 0x2028, 0x2029, 0x202f, 0x205f,
      0x3000] := by
    simp only [List.mem_cons, List.not_mem_nil, or_false]
    omega
  rw [isSpace, decide_eq_false outside, decide_eq_false (p := 0x2000 ≤ c.toNat) (by omega)]
  rfl

theorem dropWhile_isSpace {s : List Char} {c : Char} (h : isSpace c = false) :
    (c :: s).dropWhile isSpace = c :: s := by
  rw [List.dropWhile_cons, h]
  rfl

/-- A word that a number is attached to has no space around it. -/
theorem trimSpace_numbered {c : Char} (h : isSpace c = false) (word : List Char) (n : Nat) :
    trimSpace (c :: word ++ Nat.toDigits 10 n) = c :: word ++ Nat.toDigits 10 n := by
  have digits := Nat.toDigits_ne_nil (b := 10) (n := n)
  have last : isSpace ((Nat.toDigits 10 n).getLast digits) = false :=
    isSpace_digit (isDigit_toDigits (List.getLast_mem digits))
  have reversed : (c :: word ++ Nat.toDigits 10 n).reverse =
      (Nat.toDigits 10 n).getLast digits :: (c :: word ++ (Nat.toDigits 10 n).dropLast).reverse := by
    rw [← List.reverse_concat, List.append_assoc, List.dropLast_append_getLast digits]
  rw [trimSpace, List.cons_append, dropWhile_isSpace h, ← List.cons_append, reversed,
    dropWhile_isSpace last, ← reversed, List.reverse_reverse]

end EdgeKV.Text
