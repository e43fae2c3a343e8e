import EdgeKV.Store.Store
import EdgeKV.Raft.Replay

/-!
The table of remembered requests. The map and the queue describe the same requests
in every state a store can get into, which is what makes a restored snapshot the
store it was taken of. Along a log, a request stays in the table for as long as the
window says, counted from the entry that executed it.
-/
namespace EdgeKV
namespace Store

variable {s s' : Store} {index : Nat} {cmd : Command} {res : Result}

/-- The map and the queue of the table describe the same requests. -/
structure Tidy (s : Store) : Prop where
  distinct : (s.dedupOrder.map (·.id)).Nodup
  known : ∀ k ∈ s.dedupOrder, ∃ r, s.dedup k.id = some { index := k.index, result := some r }
  listed : ∀ id e, s.dedup id = some e → { index := e.index, id } ∈ s.dedupOrder

section Eviction

/-- Eviction removes requests from the front of the queue, all of them too old. -/
theorem evictLoop_spec (window index : Nat) (order : List DedupKey)
    (dedup : String → Option DedupEntry) :
    ∃ gone, order = gone ++ (evictLoop window index order dedup).1 ∧
      (∀ k ∈ gone, window < age index k.index) ∧
      ∀ id, (evictLoop window index order dedup).2 id =
        if id ∈ gone.map (·.id) then none else dedup id := by
  induction order generalizing dedup with
  | nil => exact ⟨[], rfl, fun k hk => (by cases hk), fun id => rfl⟩
  | cons oldest rest ih =>
      simp only [evictLoop]
      split
      · exact ⟨[], rfl, fun k hk => (by cases hk), fun id => rfl⟩
      next old =>
        obtain ⟨gone, split, aged, forgotten⟩ := ih (Function.update dedup oldest.id none)
        refine ⟨oldest :: gone, congrArg (oldest :: ·) split, fun k hk => ?_, fun id => ?_⟩
        · rcases List.mem_cons.mp hk with rfl | inside
          · exact Nat.lt_of_not_le old
          · exact aged k inside
        · rw [forgotten id, Function.update_apply]
          by_cases same : id = oldest.id
          · simp [same]
          · simp [same]

theorem evict_data : (s.evictDedupLocked index).data = s.data := rfl

theorem evict_none {id : String} (h : s.dedup id = none) :
    (s.evictDedupLocked index).dedup id = none := by
  obtain ⟨gone, -, -, forgotten⟩ := evictLoop_spec s.dedupWindow index s.dedupOrder s.dedup
  refine (forgotten id).trans ?_
  rw [h, ite_self]

theorem evict_tidy (h : s.Tidy) : (s.evictDedupLocked index).Tidy := by
  obtain ⟨gone, split, -, forgotten⟩ := evictLoop_spec s.dedupWindow index s.dedupOrder s.dedup
  have distinct := h.distinct
  rw [split, List.map_append] at distinct
  obtain ⟨-, kept, apart⟩ := List.nodup_append'.mp distinct
  refine ⟨kept, fun k hk => ?_, fun id e found => ?_⟩
  · obtain ⟨r, found⟩ := h.known k (split ▸ List.mem_append_right gone hk)
    refine ⟨r, (forgotten k.id).trans ?_⟩
    rw [if_neg fun inside => apart inside (List.mem_map_of_mem hk), found]
  · have found := (forgotten id).symm.trans found
    split at found
    · cases found
    next left =>
      have there := h.listed id e found
      rw [split] at there
      rcases List.mem_append.mp there with inside | there
      · exact absurd (List.mem_map_of_mem (f := fun k : DedupKey => k.id) inside) left
      · exact there

/-- A request that is not older than the window stays. -/
theorem evict_young (h : s.Tidy) {id : String} {e : DedupEntry} (found : s.dedup id = some e)
    (young : index ≤ e.index + s.dedupWindow) (past : e.index ≤ index) :
    (s.evictDedupLocked index).dedup id = some e := by
  obtain ⟨gone, split, aged, forgotten⟩ := evictLoop_spec s.dedupWindow index s.dedupOrder s.dedup
  refine (forgotten id).trans ?_
  rw [if_neg, found]
  intro inside
  obtain ⟨k, hk, rfl⟩ := List.mem_map.mp inside
  obtain ⟨r, found'⟩ := h.known k (split ▸ List.mem_append_left _ hk)
  have same : e.index = k.index := by rw [Option.some.inj (found.symm.trans found')]
  have old := aged k hk
  rw [age, if_pos (same ▸ past)] at old
  omega

end Eviction

section Execution

theorem applyLocked_table (h : s.applyLocked cmd = some (s', res)) :
    s'.dedup = s.dedup ∧ s'.dedupOrder = s.dedupOrder ∧ s'.dedupWindow = s.dedupWindow := by
  simp only [applyLocked] at h
  split at h
  · cases h; exact ⟨rfl, rfl, rfl⟩
  · split at h
    · cases h; exact ⟨rfl, rfl, rfl⟩
    · split at h
      · cases h; exact ⟨rfl, rfl, rfl⟩
      · obtain ⟨r, -, eq⟩ := Option.map_eq_some_iff.mp h
        cases eq
        exact ⟨rfl, rfl, rfl⟩
    · cases h

/-- What a command does: it is answered from the table, or executed and remembered. -/
inductive Executes (s : Store) (index : Nat) (cmd : Command) : Store → Result → Prop
  | repeated {prev : DedupEntry} (named : cmd.requestId ≠ "")
      (found : (s.evictDedupLocked index).dedup cmd.requestId = some prev) :
      Executes s index cmd (s.evictDedupLocked index) (prev.result.getD {})
  | fresh {s₁ : Store} {res : Result}
      (new : cmd.requestId ≠ "" → (s.evictDedupLocked index).dedup cmd.requestId = none)
      (applied : (s.evictDedupLocked index).applyLocked cmd = some (s₁, res)) :
      Executes s index cmd (s₁.remember index cmd.requestId res) res

theorem execute_spec (h : s.execute index cmd = some (s', res)) : Executes s index cmd s' res := by
  simp only [execute] at h
  split at h
  next prev found =>
    cases h
    split at found
    · cases found
    next named => exact .repeated named found
  next new =>
    obtain ⟨⟨s₁, res₁⟩, applied, eq⟩ := Option.map_eq_some_iff.mp h
    cases eq
    refine .fresh (fun named => ?_) applied
    rwa [if_neg named] at new

theorem remember_tidy (h : s.Tidy) {id : String} (new : id ≠ "" → s.dedup id = none) :
    (s.remember index id res).Tidy := by
  rw [remember]
  split
  · exact h
  next named =>
    have absent : ∀ k ∈ s.dedupOrder, k.id ≠ id := by
      intro k hk same
      obtain ⟨r, found⟩ := h.known k hk
      rw [same, new named] at found
      cases found
    refine ⟨?_, fun k hk => ?_, fun id' e found => ?_⟩
    · rw [List.map_append, List.map_singleton]
      refine List.nodup_append'.mpr ⟨h.distinct, List.nodup_singleton _, fun x hx hx' => ?_⟩
      obtain ⟨k, hk, rfl⟩ := List.mem_map.mp hx
      exact absent k hk (List.mem_singleton.mp hx')
    · rcases List.mem_append.mp hk with old | new
      · obtain ⟨r, found⟩ := h.known k old
        exact ⟨r, (Function.update_of_ne (absent k old) ..).trans found⟩
      · rw [List.mem_singleton.mp new]
        exact ⟨res, Function.update_self ..⟩
    · by_cases same : id' = id
      · subst same
        simp only [Function.update_self] at found
        cases found
        exact List.mem_append_right _ (List.mem_singleton.mpr rfl)
      · simp only [Function.update_of_ne same] at found
        exact List.mem_append_left _ (h.listed id' e found)

theorem applyLocked_tidy (h : s.Tidy) (applied : s.applyLocked cmd = some (s', res)) : s'.Tidy := by
  obtain ⟨dedup, order, -⟩ := applyLocked_table applied
  refine ⟨?_, ?_, ?_⟩
  · rw [order]; exact h.distinct
  · rw [order, dedup]; exact h.known
  · rw [order, dedup]; exact h.listed

theorem execute_tidy (h : s.Tidy) (executed : s.execute index cmd = some (s', res)) :
    s'.Tidy ∧ s'.dedupWindow = s.dedupWindow := by
  cases execute_spec executed with
  | repeated named found => exact ⟨evict_tidy h, rfl⟩
  | @fresh s₁ _ new applied =>
      obtain ⟨dedup, -, window⟩ := applyLocked_table applied
      refine ⟨remember_tidy (applyLocked_tidy (evict_tidy h) applied) fun named => ?_, ?_⟩
      · rw [dedup]
        exact new named
      · rw [remember]
        split <;> exact window

end Execution

section Snapshot

/-- Writing a list with distinct keys into a map leaves each item at its key. -/
theorem foldl_update {α β : Type} (key : α → String) (value : α → β) {xs : List α}
    (distinct : (xs.map key).Nodup) (m : String → Option β) :
    (∀ x ∈ xs, xs.foldl (fun m x => Function.update m (key x) (some (value x))) m (key x) =
      some (value x)) ∧
    ∀ k, k ∉ xs.map key →
      xs.foldl (fun m x => Function.update m (key x) (some (value x))) m k = m k := by
  induction xs generalizing m with
  | nil => exact ⟨fun x hx => (by cases hx), fun k _ => rfl⟩
  | cons y xs ih =>
      rw [List.map_cons, List.nodup_cons] at distinct
      obtain ⟨written, untouched⟩ :=
        ih distinct.2 (Function.update m (key y) (some (value y)))
      refine ⟨fun x hx => ?_, fun k hk => ?_⟩
      · rcases List.mem_cons.mp hx with rfl | later
        · exact (untouched _ distinct.1).trans (Function.update_self ..)
        · exact written x later
      · rw [List.map_cons, List.mem_cons, not_or] at hk
        exact (untouched k hk.2).trans (Function.update_of_ne hk.1 ..)

/-- Restoring a snapshot gives back the store it was taken of. -/
theorem restore_snapshot (h : s.Tidy) {snap : StoreSnapshot} (taken : s.Snapshots snap)
    {fresh : Store} (window : fresh.dedupWindow = s.dedupWindow) : fresh.restore snap = s := by
  have data : (fresh.restore snap).data = s.data := by
    obtain ⟨written, untouched⟩ := foldl_update (fun x : SnapshotRecord => x.key)
      (fun x => ({ value := x.value, version := x.version, deleted := x.deleted
                   cacheable := x.cacheable, ttlSeconds := x.ttlSeconds
                   updatedMs := x.updatedUnixMs } : Record)) taken.once fun _ => none
    funext key
    cases stored : s.data key with
    | some r => exact written (r.snapshot key) ((taken.records _).mpr ⟨key, r, stored, rfl⟩)
    | none =>
        refine untouched key fun inside => ?_
        obtain ⟨x, hx, rfl⟩ := List.mem_map.mp inside
        obtain ⟨key, r, stored', rfl⟩ := (taken.records x).mp hx
        cases stored.symm.trans stored'
  have order : (fresh.restore snap).dedupOrder = s.dedupOrder := by
    simp only [restore, taken.dedup, List.map_map]
    exact List.map_id _
  have ids : snap.dedup.map (·.requestId) = s.dedupOrder.map (·.id) := by
    simp only [taken.dedup, List.map_map]
    rfl
  have dedup : (fresh.restore snap).dedup = s.dedup := by
    obtain ⟨written, untouched⟩ := foldl_update (fun x : SnapshotDedup => x.requestId)
      (fun x => ({ index := x.index, result := x.result } : DedupEntry)) (ids ▸ h.distinct)
      fun _ => none
    funext id
    cases stored : s.dedup id with
    | some e =>
        have listed := h.listed id e stored
        refine written { requestId := id, index := e.index, result := e.result } ?_
        rw [taken.dedup]
        refine List.mem_map.mpr ⟨_, listed, ?_⟩
        rw [stored]
        rfl
    | none =>
        refine untouched id fun inside => ?_
        rw [ids] at inside
        obtain ⟨k, hk, rfl⟩ := List.mem_map.mp inside
        obtain ⟨r, stored'⟩ := h.known k hk
        cases stored.symm.trans stored'
  cases s
  cases data
  cases order
  cases dedup
  cases window
  rfl

end Snapshot

section Machine

variable {codecs : Codecs} {window : Nat}

theorem apply_execute {data out : Bytes} (h : s.apply codecs index data = some (s', out)) :
    ∃ cmd res, codecs.command.unmarshal data = some cmd ∧ s.execute index cmd = some (s', res) ∧
      out = codecs.result.marshal res := by
  obtain ⟨cmd, decoded, h⟩ := Option.bind_eq_some_iff.mp h
  obtain ⟨⟨s₁, res⟩, executed, eq⟩ := Option.map_eq_some_iff.mp h
  cases eq
  exact ⟨cmd, res, decoded, executed, rfl⟩

/-- A store that was taken through a log, by commands or snapshots, is the fold of that
log, and its table is tidy. -/
theorem reflects_store {L : List EdgeKV.Entry} (h : Reflects (machine codecs window) s L) :
    s.Tidy ∧ s.dedupWindow = window ∧ (machine codecs window).replay L = some s := by
  induction h with
  | init => exact ⟨⟨List.nodup_nil, fun k hk => (by cases hk), fun id e h => by cases h⟩, rfl, rfl⟩
  | @apply s s' L e out _ normal applied ih =>
      obtain ⟨tidy, same, replayed⟩ := ih
      obtain ⟨cmd, res, -, executed, -⟩ := apply_execute applied
      obtain ⟨tidy', same'⟩ := execute_tidy tidy executed
      refine ⟨tidy', same'.trans same, ?_⟩
      rw [StateMachine.replay_concat, replayed, Option.bind_some, StateMachine.step, normal]
      simp only [applied, Option.map_some]
  | @skip s L e _ noop ih =>
      obtain ⟨tidy, same, replayed⟩ := ih
      refine ⟨tidy, same, ?_⟩
      rw [StateMachine.replay_concat, replayed, Option.bind_some, StateMachine.step, noop]
  | @restore s s' L data _ captured restored ih =>
      obtain ⟨tidy, same, replayed⟩ := ih
      obtain ⟨snap, taken, rfl⟩ := captured
      obtain ⟨snap', decoded, rfl⟩ := Option.map_eq_some_iff.mp restored
      rw [codecs.snapshot.round] at decoded
      cases decoded
      rw [restore_snapshot tidy taken same.symm]
      exact ⟨tidy, same, replayed⟩

end Machine
end Store
end EdgeKV
