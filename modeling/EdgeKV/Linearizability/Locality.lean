import EdgeKV.Linearizability.History
import Mathlib.Data.List.Dedup

/-!
Linearizability is local: a history of operations on several parts of an object is
linearizable if, for each part, the history of the operations on it is. Real time is an
interval order, so of the operations that come first in two orders, one is not preceded by
anything in the other order; merging the orders by that choice keeps real time.
-/
namespace Linearizability

variable {S Op I O K V : Type}

section Intervals

variable {α : Type} {R : α → α → Prop}

/-- Of two pairs in the relation, one begins before the other ends. -/
def IntervalOrder (R : α → α → Prop) : Prop :=
  ∀ a b c d, R a b → R c d → R a d ∨ R c b

/-- The list contradicts the relation nowhere, not even at one element. -/
def Respects (R : α → α → Prop) (xs : List α) : Prop :=
  xs.Pairwise (fun x y => ¬ R y x) ∧ ∀ x ∈ xs, ¬ R x x

theorem Respects.tail {x : α} {xs : List α} (h : Respects R (x :: xs)) : Respects R xs :=
  ⟨(List.pairwise_cons.mp h.1).2, fun y hy => h.2 y (List.mem_cons_of_mem x hy)⟩

/-- Nothing in the list comes before its first element. -/
theorem Respects.head {x y : α} {xs : List α} (h : Respects R (x :: xs)) (hy : y ∈ x :: xs) :
    ¬ R y x := by
  cases hy with
  | head => exact h.2 x List.mem_cons_self
  | tail _ later => exact (List.pairwise_cons.mp h.1).1 y later

/-- One of the first elements of two lists is not preceded by anything in the other list. -/
theorem head_free (interval : IntervalOrder R) {x y : α} {xs ys : List α}
    (hx : Respects R (x :: xs)) (hy : Respects R (y :: ys)) :
    (∀ b ∈ y :: ys, ¬ R b x) ∨ ∀ a ∈ x :: xs, ¬ R a y := by
  by_contra both
  push Not at both
  obtain ⟨⟨b, hb, before⟩, a, ha, before'⟩ := both
  cases interval b x a y before before' with
  | inl own => exact hy.head hb own
  | inr own => exact hx.head ha own

/-- Two lists, told apart by `p`, are the parts of one list that respects the relation. -/
theorem exists_merge (interval : IntervalOrder R) (p : α → Bool) {xs ys : List α}
    (hx : Respects R xs) (hy : Respects R ys) (inside : ∀ x ∈ xs, p x = true)
    (outside : ∀ y ∈ ys, p y = false) :
    ∃ zs, zs.filter p = xs ∧ zs.filter (fun z => !p z) = ys ∧ Respects R zs ∧
      ∀ z ∈ zs, z ∈ xs ∨ z ∈ ys := by
  induction xs generalizing ys with
  | nil =>
      refine ⟨ys, ?_, ?_, hy, fun z hz => Or.inr hz⟩
      · exact List.filter_eq_nil_iff.mpr fun y h => by simp [outside y h]
      · exact List.filter_eq_self.mpr fun y h => by simp [outside y h]
  | cons x xs ihx =>
      have px : p x = true := inside x List.mem_cons_self
      induction ys with
      | nil =>
          refine ⟨x :: xs, ?_, ?_, hx, fun z hz => Or.inl hz⟩
          · exact List.filter_eq_self.mpr inside
          · exact List.filter_eq_nil_iff.mpr fun z h => by simp [inside z h]
      | cons y ys ihy =>
          have py : p y = false := outside y List.mem_cons_self
          cases head_free interval hx hy with
          | inl free =>
              obtain ⟨zs, left, right, respects, from_⟩ := ihx hx.tail hy
                (fun z h => inside z (List.mem_cons_of_mem x h)) outside
              refine ⟨x :: zs, ?_, ?_, ⟨List.pairwise_cons.mpr ⟨fun z hz => ?_, respects.1⟩, ?_⟩, ?_⟩
              · rw [List.filter_cons_of_pos px, left]
              · rw [List.filter_cons_of_neg (by simp [px]), right]
              · cases from_ z hz with
                | inl own => exact hx.head (List.mem_cons_of_mem x own)
                | inr other => exact free z other
              · exact List.forall_mem_cons.mpr ⟨hx.2 x List.mem_cons_self, respects.2⟩
              · refine List.forall_mem_cons.mpr ⟨Or.inl List.mem_cons_self, fun z hz => ?_⟩
                exact (from_ z hz).imp (List.mem_cons_of_mem x) id
          | inr free =>
              obtain ⟨zs, left, right, respects, from_⟩ := ihy hy.tail
                fun z h => outside z (List.mem_cons_of_mem y h)
              refine ⟨y :: zs, ?_, ?_, ⟨List.pairwise_cons.mpr ⟨fun z hz => ?_, respects.1⟩, ?_⟩, ?_⟩
              · rw [List.filter_cons_of_neg (by simp [py]), left]
              · rw [List.filter_cons_of_pos (by simp [py]), right]
              · cases from_ z hz with
                | inl other => exact free z other
                | inr own => exact hy.head (List.mem_cons_of_mem y own)
              · exact List.forall_mem_cons.mpr ⟨hy.2 y List.mem_cons_self, respects.2⟩
              · refine List.forall_mem_cons.mpr ⟨Or.inr List.mem_cons_self, fun z hz => ?_⟩
                exact (from_ z hz).imp id (List.mem_cons_of_mem y)

/-- The same for any number of lists, told apart by a key. -/
theorem exists_merge_family [DecidableEq K] (interval : IntervalOrder R) (key : α → K)
    {orders : K → List α} (respects : ∀ k, Respects R (orders k))
    (keyed : ∀ k, ∀ x ∈ orders k, key x = k) {keys : List K} (distinct : keys.Nodup) :
    ∃ zs, (∀ k ∈ keys, zs.filter (fun z => decide (key z = k)) = orders k) ∧ Respects R zs ∧
      ∀ z ∈ zs, key z ∈ keys ∧ z ∈ orders (key z) := by
  induction keys with
  | nil => exact ⟨[], by simp, ⟨.nil, by simp⟩, by simp⟩
  | cons k keys ih =>
      obtain ⟨new, rest⟩ := List.nodup_cons.mp distinct
      obtain ⟨ys, parts, hy, from_⟩ := ih rest
      have others : ∀ y ∈ ys, key y ≠ k := fun y h same => new (same ▸ (from_ y h).1)
      obtain ⟨zs, left, right, hz, origin⟩ := exists_merge interval (fun z => decide (key z = k))
        (respects k) hy (fun x h => by simp [keyed k x h]) (fun y h => by simp [others y h])
      refine ⟨zs, List.forall_mem_cons.mpr ⟨left, fun j hj => ?_⟩, hz, fun z h => ?_⟩
      · have apart : j ≠ k := fun same => new (same ▸ hj)
        rw [← parts j hj, ← right, List.filter_filter]
        refine List.filter_congr fun z _ => ?_
        by_cases own : key z = j
        · simp [own, apart]
        · simp [own]
      · cases origin z h with
        | inl own =>
            have same := keyed k z own
            exact ⟨same ▸ List.mem_cons_self, same ▸ own⟩
        | inr other =>
            obtain ⟨there, belongs⟩ := from_ z other
            exact ⟨List.mem_cons_of_mem k there, belongs⟩

/-- A relation holds within a list between elements of one key if it holds along the part of
each key. -/
theorem pairwise_of_parts [DecidableEq K] (key : α → K) {zs : List α}
    (parts : ∀ k, (zs.filter fun z => decide (key z = k)).Pairwise R) :
    zs.Pairwise fun x y => key x = key y → R x y := by
  induction zs with
  | nil => exact .nil
  | cons z zs ih =>
      refine List.pairwise_cons.mpr ⟨fun y hy same => ?_, ih fun k => ?_⟩
      · have own := parts (key z)
        rw [List.filter_cons_of_pos (by simp)] at own
        exact (List.pairwise_cons.mp own).1 y (List.mem_filter.mpr ⟨hy, by simp [same]⟩)
      · exact (parts k).sublist ((List.sublist_cons_self z zs).filter _)

end Intervals

section RealTime

variable {history : List (Event Op I O)}

theorem precedes_interval (history : List (Event Op I O)) : IntervalOrder (Precedes history) := by
  rintro a b c d ⟨before, after, out, inp, split, told, asked⟩ ⟨before', after', out', inp', split',
    told', asked'⟩
  cases List.append_eq_append_iff.mp (split.symm.trans split') with
  | inl longer =>
      obtain ⟨mid, rfl, rfl⟩ := longer
      exact Or.inl ⟨before, mid ++ after', out, inp', split, told, List.mem_append_right _ asked'⟩
  | inr shorter =>
      obtain ⟨mid, rfl, rfl⟩ := shorter
      exact Or.inr ⟨before', mid ++ after, out', inp, split', told', List.mem_append_right _ asked⟩

/-- Precedence is between two events, so it survives where both are kept. -/
theorem precedes_filter {p : Event Op I O → Bool} {op op' : Op} (h : Precedes history op op')
    (keeps : ∀ e ∈ history, e.op = op ∨ e.op = op' → p e = true) :
    Precedes (history.filter p) op op' := by
  obtain ⟨before, after, out, inp, rfl, told, asked⟩ := h
  refine ⟨before.filter p, after.filter p, out, inp, List.filter_append .., ?_, ?_⟩
  · exact List.mem_filter.mpr ⟨told, keeps _ (List.mem_append_left _ told) (Or.inl rfl)⟩
  · exact List.mem_filter.mpr ⟨asked, keeps _ (List.mem_append_right _ asked) (Or.inr rfl)⟩

end RealTime

section Relabel

variable {Op' : Type}

/-- The event under another name of its operation. -/
def Event.relabel (f : Op → Op') : Event Op I O → Event Op' I O
  | .invoke op input => .invoke (f op) input
  | .respond op output => .respond (f op) output

@[simp] theorem Event.op_relabel (f : Op → Op') (e : Event Op I O) :
    (e.relabel f).op = f e.op := by
  cases e <;> rfl

@[simp] theorem relabel_id (e : Event Op I O) : (e.relabel fun op => op) = e := by
  cases e <;> rfl

theorem relabel_relabel {Op'' : Type} (f : Op → Op') (g : Op' → Op'') (e : Event Op I O) :
    (e.relabel f).relabel g = e.relabel (g ∘ f) := by
  cases e <;> rfl

theorem mem_map_invoke {f : Op → Op'} (inj : Function.Injective f) {history : List (Event Op I O)}
    {op : Op} {input : I} :
    .invoke (f op) input ∈ history.map (Event.relabel f) ↔ .invoke op input ∈ history := by
  refine ⟨fun h => ?_, fun h => List.mem_map.mpr ⟨_, h, rfl⟩⟩
  obtain ⟨e, he, same⟩ := List.mem_map.mp h
  cases e with
  | invoke op' input' =>
      obtain ⟨named, rfl⟩ := Event.invoke.inj same
      rwa [inj named] at he
  | respond op' output => cases same

theorem mem_map_respond {f : Op → Op'} (inj : Function.Injective f) {history : List (Event Op I O)}
    {op : Op} {output : O} :
    .respond (f op) output ∈ history.map (Event.relabel f) ↔ .respond op output ∈ history := by
  refine ⟨fun h => ?_, fun h => List.mem_map.mpr ⟨_, h, rfl⟩⟩
  obtain ⟨e, he, same⟩ := List.mem_map.mp h
  cases e with
  | invoke op' input => cases same
  | respond op' output' =>
      obtain ⟨named, rfl⟩ := Event.respond.inj same
      rwa [inj named] at he

theorem precedes_relabel {f : Op → Op'} (inj : Function.Injective f)
    {history : List (Event Op I O)} {op op' : Op}
    (h : Precedes (history.map (Event.relabel f)) (f op) (f op')) : Precedes history op op' := by
  obtain ⟨before, after, out, inp, split, told, asked⟩ := h
  obtain ⟨first, rest, rfl, rfl, rfl⟩ := List.map_eq_append_iff.mp split
  exact ⟨first, rest, out, inp, rfl, (mem_map_respond inj).mp told, (mem_map_invoke inj).mp asked⟩

theorem legal_relabel (f : Op → Op') {spec : Spec S I O} {s : S} {order : List (Point Op I O)}
    (h : spec.Legal s order) :
    spec.Legal s (order.map fun x => (⟨f x.op, x.input, x.output⟩ : Point Op' I O)) := by
  induction order generalizing s with
  | nil => trivial
  | cons x order ih => exact ⟨h.1, ih h.2⟩

/-- The names of the operations do not matter. -/
theorem linearizable_relabel {f : Op → Op'} (inj : Function.Injective f) {spec : Spec S I O}
    {history : List (Event Op I O)} (h : Linearizable spec history) :
    Linearizable spec (history.map (Event.relabel f)) := by
  obtain ⟨order, distinct, invoked, responded, realTime, legal⟩ := h
  refine ⟨order.map fun x => ⟨f x.op, x.input, x.output⟩, ?_, fun y hy => ?_,
    fun op output told => ?_, ?_, legal_relabel f legal⟩
  · rw [List.map_map]
    exact (List.pairwise_map.mpr ((List.pairwise_map.mp distinct).imp fun differ same =>
      differ (inj same)))
  · obtain ⟨x, hx, rfl⟩ := List.mem_map.mp hy
    exact (mem_map_invoke inj).mpr (invoked x hx)
  · obtain ⟨e, he, same⟩ := List.mem_map.mp told
    cases e with
    | invoke op' input => cases same
    | respond op' output' =>
        cases same
        obtain ⟨x, hx, rfl, rfl⟩ := responded op' _ he
        exact ⟨_, List.mem_map.mpr ⟨x, hx, rfl⟩, rfl, rfl⟩
  · exact List.pairwise_map.mpr (realTime.imp fun free before => free (precedes_relabel inj before))

end Relabel

section Parts

/-- Every operation works on one part of the object: it sees and changes that part only. -/
structure Parted (spec : Spec S I O) (part : I → K) (view : K → S → V) : Prop where
  own : ∀ s t i, view (part i) s = view (part i) t →
    (spec.step s i).2 = (spec.step t i).2 ∧
      view (part i) (spec.step s i).1 = view (part i) (spec.step t i).1
  other : ∀ s i k, k ≠ part i → view k (spec.step s i).1 = view k s

variable {spec : Spec S I O} {part : I → K} {view : K → S → V}

/-- An order is legal if for each part the operations on it are. -/
theorem legal_of_parts [DecidableEq K] (parted : Parted spec part view)
    {order : List (Point Op I O)} {s : S}
    (h : ∀ k, ∃ t, view k t = view k s ∧
      spec.Legal t (order.filter fun x => decide (part x.input = k))) :
    spec.Legal s order := by
  induction order generalizing s with
  | nil => trivial
  | cons x rest ih =>
      obtain ⟨t, same, legal⟩ := h (part x.input)
      rw [List.filter_cons_of_pos (by simp)] at legal
      obtain ⟨output, viewed⟩ := parted.own t s x.input same
      refine ⟨output ▸ legal.1, ih fun k => ?_⟩
      by_cases here : k = part x.input
      · subst here
        exact ⟨_, viewed, legal.2⟩
      · obtain ⟨u, seen, legal'⟩ := h k
        rw [List.filter_cons_of_neg (by simpa using Ne.symm here)] at legal'
        exact ⟨u, seen.trans (parted.other s x.input k here).symm, legal'⟩

end Parts

/-- A history is linearizable if the operations on each part are. No operation may respond
before it is invoked. -/
theorem linearizable_of_parts [DecidableEq K] {spec : Spec S I O} {part : I → K}
    {view : K → S → V} (parted : Parted spec part view) {history : List (Event Op I O)}
    (owner : Op → K) (routed : ∀ op input, .invoke op input ∈ history → part input = owner op)
    (forward : ∀ op, ¬ Precedes history op op)
    (parts : ∀ k, Linearizable spec (history.filter fun e => decide (owner e.op = k))) :
    Linearizable spec history := by
  choose orders distinct invoked responded realTime legal using parts
  have routed_point {k : K} {x : Point Op I O} (hx : x ∈ orders k) :
      .invoke x.op x.input ∈ history ∧ owner x.op = k := by
    obtain ⟨there, own⟩ := List.mem_filter.mp (invoked k x hx)
    exact ⟨there, of_decide_eq_true own⟩
  have keyed (k : K) (x : Point Op I O) (hx : x ∈ orders k) : part x.input = k := by
    obtain ⟨there, own⟩ := routed_point hx
    exact (routed _ _ there).trans own
  let R (x y : Point Op I O) : Prop := Precedes history x.op y.op
  have respects (k : K) : Respects R (orders k) := by
    refine ⟨List.Pairwise.imp_of_mem (fun {x y} hx hy free before => free ?_) (realTime k),
      fun x _ => forward x.op⟩
    refine precedes_filter before fun e _ named => ?_
    cases named with
    | inl own => simpa [own] using (routed_point hy).2
    | inr own => simpa [own] using (routed_point hx).2
  let keys := (history.map fun e => owner e.op).dedup
  obtain ⟨zs, filtered, ⟨pairs, -⟩, from_⟩ := exists_merge_family
    (fun a b c d => precedes_interval history a.op b.op c.op d.op)
    (fun x : Point Op I O => part x.input) respects keyed (List.nodup_dedup _ : keys.Nodup)
  have empty {k : K} (gone : k ∉ keys) : orders k = [] := by
    refine List.eq_nil_iff_forall_not_mem.mpr fun x hx => gone ?_
    obtain ⟨there, own⟩ := routed_point hx
    exact List.mem_dedup.mpr (List.mem_map.mpr ⟨_, there, own⟩)
  have projected (k : K) : zs.filter (fun z => decide (part z.input = k)) = orders k := by
    by_cases there : k ∈ keys
    · exact filtered k there
    · rw [empty there]
      refine List.filter_eq_nil_iff.mpr fun z hz own => there ?_
      exact (of_decide_eq_true own) ▸ (from_ z hz).1
  refine ⟨zs, ?_, fun x hx => (routed_point (from_ x hx).2).1, fun op output told => ?_, pairs, ?_⟩
  · have along (k : K) : (zs.filter fun z => decide (part z.input = k)).Pairwise (·.op ≠ ·.op) := by
      rw [projected k]
      exact List.pairwise_map.mp (distinct k)
    have apart := pairwise_of_parts (fun x : Point Op I O => part x.input) along
    refine List.pairwise_map.mpr (List.Pairwise.imp_of_mem (fun {x y} hx hy differ same => ?_) apart)
    have placed {z : Point Op I O} (hz : z ∈ zs) : part z.input = owner z.op :=
      routed _ _ (routed_point (from_ z hz).2).1
    exact differ (by rw [placed hx, placed hy, same]) same
  · have own : .respond op output ∈ history.filter fun e => decide (owner e.op = owner op) :=
      List.mem_filter.mpr ⟨told, by simp [Event.op]⟩
    obtain ⟨x, hx, named⟩ := responded (owner op) op output own
    rw [← projected] at hx
    exact ⟨x, (List.mem_filter.mp hx).1, named⟩
  · refine legal_of_parts parted fun k => ⟨spec.init, rfl, ?_⟩
    rw [projected k]
    exact legal k

end Linearizability
