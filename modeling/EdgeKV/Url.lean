import EdgeKV.Bytes

/-!
The path escaping of `net/url`, on the bytes of a text.
-/
namespace EdgeKV.Url

def utf8 (s : String) : Bytes := s.toByteArray.data.toList

/-- The bytes that stay as they are in a path segment, beside letters and digits. -/
def allowed : Bytes := "-_.~$&+=:@".toList.map Char.toUInt8

/-- `shouldEscape` for a path segment. -/
def shouldEscape (c : UInt8) : Bool :=
  !('a'.toUInt8 ≤ c && c ≤ 'z'.toUInt8 || 'A'.toUInt8 ≤ c && c ≤ 'Z'.toUInt8 ||
    '0'.toUInt8 ≤ c && c ≤ '9'.toUInt8 || c ∈ allowed)

def upperhex (digit : UInt8) : UInt8 :=
  if digit < 10 then '0'.toUInt8 + digit else 'A'.toUInt8 + (digit - 10)

/-- `PathEscape` -/
def pathEscape (s : Bytes) : Bytes :=
  s.flatMap fun c =>
    if shouldEscape c then ['%'.toUInt8, upperhex (c >>> 4), upperhex (c &&& 15)] else [c]

/-- No byte of the text needs to be escaped. -/
def Plain (s : Bytes) : Prop := ∀ c ∈ s, shouldEscape c = false

variable {s : Bytes}

theorem pathEscape_cons (c : UInt8) (s : Bytes) :
    pathEscape (c :: s) =
      (if shouldEscape c then ['%'.toUInt8, upperhex (c >>> 4), upperhex (c &&& 15)] else [c]) ++
        pathEscape s := rfl

theorem pathEscape_plain (h : Plain s) : pathEscape s = s := by
  induction s with
  | nil => rfl
  | cons c s ih =>
      rw [pathEscape_cons, h c List.mem_cons_self, ih fun x hx => h x (List.mem_cons_of_mem c hx)]
      rfl

theorem length_pathEscape (s : Bytes) : s.length ≤ (pathEscape s).length := by
  induction s with
  | nil => exact Nat.le_refl _
  | cons c s ih =>
      rw [pathEscape_cons, List.length_append, List.length_cons]
      split
      · simp only [List.length_cons, List.length_nil]
        omega
      · rw [List.length_singleton]
        omega

theorem pathEscape_longer (h : ¬ Plain s) : s.length < (pathEscape s).length := by
  induction s with
  | nil => exact absurd (fun _ no => nomatch no) h
  | cons c s ih =>
      rw [pathEscape_cons, List.length_append, List.length_cons]
      split
      · have := length_pathEscape s
        simp only [List.length_cons, List.length_nil]
        omega
      next plain =>
        have rest : ¬ Plain s := by
          intro tail
          refine h fun x hx => ?_
          rcases List.mem_cons.mp hx with rfl | later
          · simpa using plain
          · exact tail x later
        have := ih rest
        rw [List.length_singleton]
        omega

/-- What is escaped has no question mark in it. -/
theorem question_pathEscape (s : Bytes) : '?'.toUInt8 ∉ pathEscape s := by
  have digits : ∀ n : Fin 256,
      '?'.toUInt8 ∉ ['%'.toUInt8, upperhex (UInt8.ofNat n >>> 4), upperhex (UInt8.ofNat n &&& 15)] := by
    decide +kernel
  intro h
  obtain ⟨c, -, there⟩ := List.mem_flatMap.mp h
  split at there
  · have encoded := digits ⟨c.toNat, c.toNat_lt⟩
    rw [UInt8.ofNat_toNat] at encoded
    exact encoded there
  next plain =>
    rw [← List.mem_singleton.mp there] at plain
    exact plain rfl

end EdgeKV.Url
