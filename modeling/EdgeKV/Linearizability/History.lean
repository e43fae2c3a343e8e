import Mathlib.Data.List.Pairwise
import Mathlib.Data.List.Nodup

/-!
Linearizability of a concurrent history, and one way to prove it. A history is the
list of invocations and responses in the order in which they happened. Operations
without a response may be placed anywhere after their invocation or left out.

The rule is for replicated logs: each position of a log carries at most one
operation, and read-only operations are placed between positions.
-/
namespace Linearizability

/-- A deterministic sequential object. -/
structure Spec (S I O : Type) where
  init : S
  step : S → I → S × O

inductive Event (Op I O : Type)
  | invoke (op : Op) (input : I)
  | respond (op : Op) (output : O)
  deriving DecidableEq, Repr

/-- An operation at its place in a sequential order. -/
structure Point (Op I O : Type) where
  op : Op
  input : I
  output : O
  deriving DecidableEq, Repr

variable {S Op I O : Type}

/-- The operation that an event belongs to. -/
def Event.op : Event Op I O → Op
  | .invoke op _ => op
  | .respond op _ => op

/-- From state `s` the object gives each operation, in order, its output. -/
def Spec.Legal (spec : Spec S I O) (s : S) : List (Point Op I O) → Prop
  | [] => True
  | x :: rest => (spec.step s x.input).2 = x.output ∧ Legal spec (spec.step s x.input).1 rest

/-- `op` responded before `op'` was invoked. -/
def Precedes (history : List (Event Op I O)) (op op' : Op) : Prop :=
  ∃ before after output input, history = before ++ after ∧
    .respond op output ∈ before ∧ .invoke op' input ∈ after

/-- Some order of the operations, with all that responded among them, respects real
time and is legal for the object. -/
def Linearizable (spec : Spec S I O) (history : List (Event Op I O)) : Prop :=
  ∃ order : List (Point Op I O),
    (order.map Point.op).Nodup ∧
    (∀ x ∈ order, .invoke x.op x.input ∈ history) ∧
    (∀ op output, .respond op output ∈ history → ∃ x ∈ order, x.op = op ∧ x.output = output) ∧
    order.Pairwise (fun x y => ¬ Precedes history y.op x.op) ∧
    spec.Legal spec.init order

section Weave

/-- The operations of the log from position `k` on, with the reads of each position
before the operation that the position carries. -/
def weave (reads : Nat → List (Point Op I O)) (k : Nat) :
    List (Option (Point Op I O)) → List (Point Op I O)
  | [] => reads k
  | slot :: slots => reads k ++ (slot.toList ++ weave reads (k + 1) slots)

variable {reads : Nat → List (Point Op I O)} {x : Point Op I O}

theorem mem_weave {k : Nat} {slots : List (Option (Point Op I O))} :
    x ∈ weave reads k slots ↔
      some x ∈ slots ∨ ∃ j, k ≤ j ∧ j ≤ k + slots.length ∧ x ∈ reads j := by
  induction slots generalizing k with
  | nil =>
      refine ⟨fun h => Or.inr ⟨k, Nat.le_refl _, Nat.le_refl _, h⟩, ?_⟩
      rintro (h | ⟨j, lo, hi, there⟩)
      · cases h
      · obtain rfl : j = k := Nat.le_antisymm hi lo
        exact there
  | cons slot slots ih =>
      simp only [weave, List.mem_append, Option.mem_toList, List.mem_cons, ih, List.length_cons]
      constructor
      · rintro (h | h | h | ⟨j, lo, hi, there⟩)
        · exact Or.inr ⟨k, by omega, by omega, h⟩
        · exact Or.inl (Or.inl h.symm)
        · exact Or.inl (Or.inr h)
        · exact Or.inr ⟨j, by omega, by omega, there⟩
      · rintro ((h | h) | ⟨j, lo, hi, there⟩)
        · exact Or.inr (Or.inl h.symm)
        · exact Or.inr (Or.inr (Or.inl h))
        · rcases Nat.eq_or_lt_of_le lo with rfl | lt
          · exact Or.inl there
          · exact Or.inr (Or.inr (Or.inr ⟨j, lt, by omega, there⟩))

/-- Where an operation of the woven order stands: reads at position `k` are at `2 k`, the
operation that the position carries at `2 k + 1`. -/
inductive At (reads : Nat → List (Point Op I O)) (slots : List (Option (Point Op I O))) :
    Point Op I O → Nat → Prop
  | read {x : Point Op I O} {k : Nat} (le : k ≤ slots.length) (h : x ∈ reads k) :
      At reads slots x (2 * k)
  | slot {x : Point Op I O} {k : Nat} (h : slots[k]? = some (some x)) :
      At reads slots x (2 * k + 1)

variable {slots : List (Option (Point Op I O))}

theorem at_of_mem {k : Nat} (le : k ≤ slots.length) (h : x ∈ weave reads k (slots.drop k)) :
    ∃ i, 2 * k ≤ i ∧ At reads slots x i := by
  rcases mem_weave.mp h with inside | ⟨j, lo, hi, there⟩
  · obtain ⟨i, at_⟩ := List.getElem?_of_mem inside
    rw [List.getElem?_drop] at at_
    exact ⟨_, by omega, .slot at_⟩
  · rw [List.length_drop] at hi
    exact ⟨2 * j, by omega, .read (by omega) there⟩

theorem mem_of_at {i : Nat} (h : At reads slots x i) : x ∈ weave reads 0 slots := by
  cases h with
  | @read k le there => exact mem_weave.mpr (Or.inr ⟨k, Nat.zero_le _, by omega, there⟩)
  | slot there => exact mem_weave.mpr (Or.inl (List.mem_of_getElem? there))

/-- A relation that holds between places in their order, and between the reads of one
place in theirs, holds along the woven order. -/
theorem pairwise_weave {R : Point Op I O → Point Op I O → Prop}
    (same : ∀ k, (reads k).Pairwise R)
    (apart : ∀ x y i j, At reads slots x i → At reads slots y j → i < j → R x y) :
    (weave reads 0 slots).Pairwise R := by
  have from_ (rest : List (Option (Point Op I O))) : ∀ k, k ≤ slots.length → rest = slots.drop k →
      (weave reads k rest).Pairwise R := by
    induction rest with
    | nil => exact fun k _ _ => same k
    | cons slot rest ih =>
        intro k le eq
        have short : k < slots.length := by
          have := congrArg List.length eq
          rw [List.length_cons, List.length_drop] at this
          omega
        have here : slots[k]? = some slot := by
          rw [← Nat.add_zero k, ← List.getElem?_drop, ← eq]
          rfl
        have tail : rest = slots.drop (k + 1) := by
          rw [← List.tail_drop, ← eq]
          rfl
        have later {y : Point Op I O} (h : y ∈ weave reads (k + 1) rest) :
            ∃ j, 2 * (k + 1) ≤ j ∧ At reads slots y j := at_of_mem short (tail ▸ h)
        refine List.pairwise_append.mpr ⟨same k, List.pairwise_append.mpr
          ⟨?_, ih (k + 1) short tail, fun x hx y hy => ?_⟩, fun x hx y hy => ?_⟩
        · cases slot <;> simp
        · obtain ⟨j, lo, there⟩ := later hy
          rw [Option.mem_toList.mp hx] at here
          exact apart x y _ j (.slot here) there (by omega)
        · rcases List.mem_append.mp hy with own | next
          · rw [Option.mem_toList.mp own] at here
            exact apart x y _ _ (.read le hx) (.slot here) (by omega)
          · obtain ⟨j, lo, there⟩ := later next
            exact apart x y _ j (.read le hx) there (by omega)
  exact from_ slots 0 (Nat.zero_le _) rfl

end Weave

section Legality

variable {spec : Spec S I O}

theorem legal_reads {s : S} {rs rest : List (Point Op I O)}
    (reads : ∀ x ∈ rs, spec.step s x.input = (s, x.output)) (h : spec.Legal s rest) :
    spec.Legal s (rs ++ rest) := by
  induction rs with
  | nil => exact h
  | cons x rs ih =>
      have step := reads x (List.mem_cons_self ..)
      refine ⟨by rw [step], ?_⟩
      rw [step]
      exact ih fun y hy => reads y (List.mem_cons_of_mem _ hy)

/-- The log takes the object from `state k` to `state (k + 1)` at position `k`, by the
operation that the position carries if there is one. -/
def Carries (spec : Spec S I O) (state : Nat → S) (k : Nat) : Option (Point Op I O) → Prop
  | none => state (k + 1) = state k
  | some x => spec.step (state k) x.input = (state (k + 1), x.output)

theorem legal_weave {reads : Nat → List (Point Op I O)} {state : Nat → S}
    (hreads : ∀ k, ∀ x ∈ reads k, spec.step (state k) x.input = (state k, x.output))
    {slots : List (Option (Point Op I O))} {k : Nat}
    (hslots : ∀ i slot, slots[i]? = some slot → Carries spec state (k + i) slot) :
    spec.Legal (state k) (weave reads k slots) := by
  induction slots generalizing k with
  | nil =>
      have whole : spec.Legal (state k) (reads k ++ []) := legal_reads (hreads k) trivial
      rwa [List.append_nil] at whole
  | cons slot slots ih =>
      refine legal_reads (hreads k) ?_
      have rest := ih fun i slot' h => by
        have carried := hslots (i + 1) slot' h
        rwa [← Nat.add_assoc, Nat.add_right_comm] at carried
      have here : Carries spec state k slot := hslots 0 slot rfl
      cases slot with
      | none =>
          simp only [Carries] at here
          rw [here] at rest
          exact rest
      | some x =>
          simp only [Carries] at here
          refine ⟨by rw [here], ?_⟩
          rw [here]
          exact rest

end Legality

/-- A history is linearizable if its operations have places along a log: those that
change the object at a position of their own, the others at a position whose state
explains their output, in an order that no response before an invocation contradicts. -/
theorem linearizable_of_log (spec : Spec S I O) {history : List (Event Op I O)}
    {slots : List (Option (Point Op I O))} {reads : Nat → List (Point Op I O)} {state : Nat → S}
    (init : state 0 = spec.init)
    (hreads : ∀ k, ∀ x ∈ reads k, spec.step (state k) x.input = (state k, x.output))
    (hslots : ∀ k slot, slots[k]? = some slot → Carries spec state k slot)
    (invoked : ∀ x i, At reads slots x i → .invoke x.op x.input ∈ history)
    (responded : ∀ op output, .respond op output ∈ history →
      ∃ x i, At reads slots x i ∧ x.op = op ∧ x.output = output)
    (distinct : ∀ x y i j, At reads slots x i → At reads slots y j → x.op = y.op → i = j)
    (realTime : ∀ x y i j, At reads slots x i → At reads slots y j →
      Precedes history x.op y.op → i ≤ j)
    (same : ∀ k, (reads k).Pairwise fun x y => x.op ≠ y.op ∧ ¬ Precedes history y.op x.op) :
    Linearizable spec history := by
  refine ⟨weave reads 0 slots, ?_, fun x hx => ?_, fun op output told => ?_, ?_, ?_⟩
  · refine List.pairwise_map.mpr (pairwise_weave (fun k => (same k).imp And.left) ?_)
    intro x y i j hx hy lt eq
    exact absurd (distinct x y i j hx hy eq) (by omega)
  · obtain ⟨i, -, there⟩ : ∃ i, 2 * 0 ≤ i ∧ At reads slots x i := at_of_mem (Nat.zero_le _) hx
    exact invoked x i there
  · obtain ⟨x, i, there, rest⟩ := responded op output told
    exact ⟨x, mem_of_at there, rest⟩
  · refine pairwise_weave (fun k => (same k).imp And.right) fun x y i j hx hy lt before => ?_
    have := realTime y x j i hy hx before
    omega
  · rw [← init]
    exact legal_weave hreads fun i slot h => by
      rw [Nat.zero_add]
      exact hslots i slot h

end Linearizability
