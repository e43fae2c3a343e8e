import EdgeKV.Linearizability.History
import Mathlib.Data.List.Induction

/-!
Operations that are carried out by attempts. An operation of the outer level is invoked, makes
attempts at the inner level and hands on the answer of one of them. Attempts that are not
answered for may have no effect. The outer history is then linearizable if the inner one is,
with answers as the outer level sees them.
-/
namespace Linearizability

variable {S Op Op' I O O' : Type}

/-- The object with its outputs seen through `view`. -/
def Spec.mapOutput (spec : Spec S I O) (view : O → O') : Spec S I O' where
  init := spec.init
  step := fun s i => ((spec.step s i).1, view (spec.step s i).2)

/-- What happened at the two levels, in one order. -/
abbrev Trace (Op' Op I O' O : Type) := List (Event Op' I O' ⊕ Event Op I O)

namespace Trace

def outer (trace : Trace Op' Op I O' O) : List (Event Op' I O') := trace.filterMap Sum.getLeft?

def inner (trace : Trace Op' Op I O' O) : List (Event Op I O) := trace.filterMap Sum.getRight?

variable {trace trace' : Trace Op' Op I O' O}

theorem mem_outer {e : Event Op' I O'} : e ∈ trace.outer ↔ .inl e ∈ trace := by
  simp [outer, List.mem_filterMap]

theorem mem_inner {e : Event Op I O} : e ∈ trace.inner ↔ .inr e ∈ trace := by
  simp [inner, List.mem_filterMap]

theorem inner_append : inner (trace ++ trace') = trace.inner ++ trace'.inner :=
  List.filterMap_append

end Trace

/-- How operations and attempts fit together: `owner` says whose attempt it is, and `answers`
which attempts may be answered for. -/
structure Attempted (spec : Spec S I O) (view : O → O') (trace : Trace Op' Op I O' O)
    (owner : Op → Op') (answers : Op → Prop) : Prop where
  opened : ∀ before x i, before ++ [.inr (.invoke x i)] <+: trace →
    .inl (.invoke (owner x) i) ∈ before
  once : trace.Pairwise fun e e' => ∀ x i i', e = .inr (.invoke x i) →
    e' ≠ .inl (.invoke (owner x) i')
  closed : ∀ before op out, before ++ [.inl (.respond op out)] <+: trace →
    ∃ x inn, owner x = op ∧ answers x ∧ .inr (.respond x inn) ∈ before ∧ out = view inn
  single : ∀ x y, answers x → answers y → owner x = owner y → x = y
  readOnly : ∀ x i, .inr (.invoke x i) ∈ trace → ¬ answers x → ∀ s, (spec.step s i).1 = s

/-- What holds between each element and those before it holds between any two in order. -/
theorem pairwise_of_prefix {α : Type} {R : α → α → Prop} {l : List α}
    (h : ∀ before e, before ++ [e] <+: l → ∀ e₀ ∈ before, R e₀ e) : l.Pairwise R := by
  induction l using List.reverseRecOn with
  | nil => exact .nil
  | append_singleton l x ih =>
      refine List.pairwise_append.mpr ⟨ih fun before e there => ?_, List.pairwise_singleton _ _, ?_⟩
      · exact h before e (there.trans (List.prefix_append _ _))
      · intro y hy z hz
        rw [List.mem_singleton.mp hz]
        exact h l x List.prefix_rfl y hy

section Legal

variable {spec : Spec S I O}

theorem legal_filter {p : Point Op I O → Bool} {order : List (Point Op I O)} {s : S}
    (readOnly : ∀ x ∈ order, p x = false → ∀ s, (spec.step s x.input).1 = s)
    (h : spec.Legal s order) : spec.Legal s (order.filter p) := by
  induction order generalizing s with
  | nil => trivial
  | cons x rest ih =>
      have later := ih (fun y hy => readOnly y (List.mem_cons_of_mem _ hy)) h.2
      cases keeps : p x with
      | true =>
          rw [List.filter_cons_of_pos keeps]
          exact ⟨h.1, later⟩
      | false =>
          rw [List.filter_cons_of_neg (by simp [keeps])]
          rwa [readOnly x (List.mem_cons_self ..) keeps s] at later

theorem legal_map (owner : Op → Op') (view : O → O') {order : List (Point Op I O)} {s : S}
    (h : spec.Legal s order) :
    (spec.mapOutput view).Legal s
      (order.map fun x => (⟨owner x.op, x.input, view x.output⟩ : Point Op' I O')) := by
  induction order generalizing s with
  | nil => trivial
  | cons x rest ih => exact ⟨congrArg view h.1, ih h.2⟩

end Legal

section Transfer

variable {spec : Spec S I O} {view : O → O'} {trace : Trace Op' Op I O' O} {owner : Op → Op'}
  {answers : Op → Prop}

/-- If an operation was answered before another one was invoked, then so were their
attempts. -/
theorem precedes_attempts (h : Attempted spec view trace owner answers) {x y : Op} {i : I}
    (answered : answers x) (invoked : .inr (.invoke y i) ∈ trace)
    (before : Precedes trace.outer (owner x) (owner y)) : Precedes trace.inner x y := by
  obtain ⟨first, rest, out, i', split, told, asked⟩ := before
  obtain ⟨trace₁, trace₂, rfl, rfl, rfl⟩ := List.filterMap_eq_append_iff.mp split
  obtain ⟨past, future, rfl⟩ := List.append_of_mem (Trace.mem_outer.mp told)
  -- The answer comes from an attempt, which is `x`, and was there already.
  obtain ⟨x', inn, own, answered', there, -⟩ :=
    h.closed past (owner x) out ⟨future ++ trace₂, by simp⟩
  obtain rfl := h.single x' x answered' answered own
  have late : .inr (.invoke y i) ∈ trace₂ := by
    refine (List.mem_append.mp invoked).resolve_left fun early => ?_
    exact (List.pairwise_append.mp h.once).2.2 _ early _ (Trace.mem_outer.mp asked) y i i' rfl rfl
  refine ⟨_, _, inn, i, Trace.inner_append, Trace.mem_inner.mpr ?_, Trace.mem_inner.mpr late⟩
  exact List.mem_append_left _ there

theorem linearizable_of_attempts (h : Attempted spec view trace owner answers)
    (inner : Linearizable spec trace.inner) :
    Linearizable (spec.mapOutput view) trace.outer := by
  classical
  obtain ⟨order, distinct, invoked, responded, realTime, legal⟩ := inner
  have there (x : Point Op I O) (hx : x ∈ order) : .inr (.invoke x.op x.input) ∈ trace :=
    Trace.mem_inner.mp (invoked x hx)
  let kept := order.filter fun x => decide (answers x.op)
  have of_kept {x : Point Op I O} (hx : x ∈ kept) : x ∈ order ∧ answers x.op :=
    (List.mem_filter.mp hx).imp id of_decide_eq_true
  refine ⟨kept.map fun x => ⟨owner x.op, x.input, view x.output⟩, ?_, fun z hz => ?_,
    fun op out told => ?_, ?_, ?_⟩
  · rw [List.map_map]
    refine List.pairwise_map.mpr (List.Pairwise.imp_of_mem (fun {x y} hx hy differ same => ?_)
      ((List.pairwise_map.mp distinct).filter _))
    exact differ (h.single x.op y.op (of_kept hx).2 (of_kept hy).2 same)
  · obtain ⟨x, hx, rfl⟩ := List.mem_map.mp hz
    obtain ⟨before, after, split⟩ := List.append_of_mem (there x (of_kept hx).1)
    have opened := h.opened before x.op x.input ⟨after, by simp [split]⟩
    exact Trace.mem_outer.mpr (split ▸ List.mem_append_left _ opened)
  · obtain ⟨before, after, split⟩ := List.append_of_mem (Trace.mem_outer.mp told)
    obtain ⟨x, inn, own, answered, early, rfl⟩ := h.closed before op out ⟨after, by simp [split]⟩
    obtain ⟨p, hp, rfl, rfl⟩ := responded x inn (Trace.mem_inner.mpr (by
      rw [split]
      exact List.mem_append_left _ early))
    refine ⟨_, List.mem_map.mpr ⟨p, ?_, rfl⟩, own, rfl⟩
    exact List.mem_filter.mpr ⟨hp, decide_eq_true answered⟩
  · refine List.pairwise_map.mpr (List.Pairwise.imp_of_mem (fun {x y} hx hy free before => ?_)
      (realTime.filter _))
    exact free (precedes_attempts h (of_kept hy).2 (there x (of_kept hx).1) before)
  · refine legal_map owner view (legal_filter (fun x hx drops => ?_) legal)
    exact h.readOnly x.op x.input (there x hx) (of_decide_eq_false drops)

end Transfer
end Linearizability
