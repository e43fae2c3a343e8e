import EdgeKV.Store.Runs

/-!
The table of remembered requests in every store that can be reached by `Apply` at rising
indexes, by restoring snapshots into whatever store, and by changes of the window. The
queue is in the order of the log, so the age of its head bounds all the others, and no
subtraction of indexes wraps around.
-/
namespace EdgeKV
namespace Store

variable {s s' : Store} {next index : Nat} {cmd : Command} {res : Result} {codecs : Codecs}

def setDedupWindow (s : Store) (n : Nat) : Store := { s with dedupWindow := n }

/-- The stores that a new one can become. The next `Apply` is at `next` or later. -/
inductive Reached (codecs : Codecs) : Nat → Store → Prop
  | new : Reached codecs 0 {}
  | setDedupWindow {next : Nat} {s : Store} (h : Reached codecs next s) (n : Nat) :
      Reached codecs next (s.setDedupWindow n)
  | apply {next index : Nat} {s s' : Store} {data out : Bytes} (h : Reached codecs next s)
      (rising : next ≤ index) (applied : s.apply codecs index data = some (s', out)) :
      Reached codecs (index + 1) s'
  | restore {next : Nat} {s s' other : Store} {data : Bytes} (h : Reached codecs next s)
      (captured : (machine codecs other.dedupWindow).snapshot s data)
      (restored : other.restoreData codecs data = some s') :
      Reached codecs next s'

/-- The table is tidy, and the queue is in the order of the log up to `next`. -/
structure Ordered (next : Nat) (s : Store) : Prop where
  tidy : s.Tidy
  sorted : s.dedupOrder.Pairwise fun a b => a.index < b.index
  past : ∀ k ∈ s.dedupOrder, k.index < next

theorem ordered_setDedupWindow (h : Ordered next s) (n : Nat) :
    Ordered next (s.setDedupWindow n) :=
  ⟨⟨h.tidy.distinct, h.tidy.known, h.tidy.listed⟩, h.sorted, h.past⟩

/-- A restored store has the snapshot's contents and keeps its own window. -/
theorem restoreData_window (tidy : s.Tidy) {data : Bytes} {other : Store}
    (captured : (machine codecs other.dedupWindow).snapshot s data) :
    other.restoreData codecs data = some (s.setDedupWindow other.dedupWindow) := by
  obtain ⟨snap, taken, marshalled⟩ := captured
  have tidy' : (s.setDedupWindow other.dedupWindow).Tidy :=
    ⟨tidy.distinct, tidy.known, tidy.listed⟩
  have taken' : (s.setDedupWindow other.dedupWindow).Snapshots snap :=
    ⟨taken.once, taken.records, taken.dedup⟩
  have captured : (machine codecs other.dedupWindow).snapshot _ data := ⟨snap, taken', marshalled⟩
  exact restoreData_snapshot tidy' captured rfl

/-- A command leaves in the queue what eviction does, and may put itself behind it. -/
theorem execute_order (executed : s.execute index cmd = some (s', res)) :
    s'.dedupOrder = (s.evictDedupLocked index).dedupOrder ∨
      s'.dedupOrder = (s.evictDedupLocked index).dedupOrder ++ [⟨index, cmd.requestId⟩] := by
  cases execute_spec executed with
  | repeated named found => exact .inl rfl
  | fresh new applied =>
      obtain ⟨-, order, -⟩ := applyLocked_table applied
      rw [remember]
      split
      · exact .inl order
      · exact .inr (congrArg (· ++ _) order)

section Step

variable (h : Ordered next s) (rising : next ≤ index)
  (executed : s.execute index cmd = some (s', res))
include h rising

theorem evicted_young {k : DedupKey} (hk : k ∈ (s.evictDedupLocked index).dedupOrder) :
    k.index < index ∧ index ≤ k.index + s.dedupWindow := by
  have past : ∀ k ∈ s.dedupOrder, k.index < index := fun k hk => (h.past k hk).trans_le rising
  have tidy : (s.evictDedupLocked index).Tidy := evict_tidy h.tidy
  obtain ⟨r, found⟩ := tidy.known k hk
  have young := (evicted_iff h.tidy h.sorted fun k hk => (past k hk).le).mp found
  exact ⟨past k (evict_sub hk), young.2⟩

include executed

/-- What is remembered after a command is at most as old as the window. -/
theorem execute_young {k : DedupKey} (hk : k ∈ s'.dedupOrder) :
    k.index ≤ index ∧ index ≤ k.index + s'.dedupWindow := by
  rw [(execute_tidy h.tidy executed).2]
  rcases execute_order executed with same | same
  · rw [same] at hk
    have young := evicted_young h rising hk
    exact ⟨young.1.le, young.2⟩
  · rw [same] at hk
    rcases List.mem_append.mp hk with old | now
    · have young := evicted_young h rising old
      exact ⟨young.1.le, young.2⟩
    · rw [List.mem_singleton.mp now]
      exact ⟨le_rfl, Nat.le_add_right ..⟩

theorem ordered_execute : Ordered (index + 1) s' where
  tidy := (execute_tidy h.tidy executed).1
  sorted := by
    rcases execute_order executed with same | same
    · rw [same]
      exact evict_sorted h.sorted
    · rw [same]
      refine List.pairwise_append.mpr
        ⟨evict_sorted h.sorted, List.pairwise_singleton .., fun k hk k' hk' => ?_⟩
      rw [List.mem_singleton.mp hk']
      exact (evicted_young h rising hk).1
  past k hk := Nat.lt_succ_of_le (execute_young h rising executed hk).1

end Step

theorem reached_ordered (h : Reached codecs next s) : Ordered next s := by
  induction h with
  | new => exact ⟨new_tidy _, .nil, fun k hk => by cases hk⟩
  | setDedupWindow _ n ih => exact ordered_setDedupWindow ih n
  | apply _ rising applied ih =>
      obtain ⟨cmd, res, -, executed, -⟩ := apply_execute applied
      exact ordered_execute ih rising executed
  | restore _ captured restored ih =>
      rw [restoreData_window ih.tidy captured] at restored
      cases restored
      exact ordered_setDedupWindow ih _

theorem age_past {old : Nat} (past : old ≤ index) : age index old = index - old :=
  if_pos past

/-- The map and the queue of the table hold the same requests, in the order of the log;
and after an `Apply`, all of them are within the window, counted without wrapping around. -/
theorem table_agrees (codecs : Codecs) (next : Nat) (s : Store) (h : Reached codecs next s) :
    (s.dedupOrder.map (·.id)).Nodup ∧
    (∀ id, (s.dedup id).isSome ↔ id ∈ s.dedupOrder.map (·.id)) ∧
    (∀ k ∈ s.dedupOrder, ∃ r, s.dedup k.id = some { index := k.index, result := some r }) ∧
    s.dedupOrder.Pairwise (fun a b => a.index < b.index) ∧
    ∀ j data s' out, next ≤ j → s.apply codecs j data = some (s', out) →
      (∀ k ∈ s.dedupOrder, age j k.index = j - k.index) ∧
      ∀ k ∈ s'.dedupOrder,
        k.index ≤ j ∧ j - k.index ≤ s'.dedupWindow ∧ age j k.index = j - k.index := by
  have ordered := reached_ordered h
  refine ⟨ordered.tidy.distinct, fun id => ⟨fun known => ?_, fun listed => ?_⟩,
    ordered.tidy.known, ordered.sorted, fun j data s' out rising applied => ⟨fun k hk => ?_,
      fun k hk => ?_⟩⟩
  · obtain ⟨e, found⟩ := Option.isSome_iff_exists.mp known
    exact List.mem_map_of_mem (f := DedupKey.id) (ordered.tidy.listed id e found)
  · obtain ⟨k, hk, rfl⟩ := List.mem_map.mp listed
    obtain ⟨r, found⟩ := ordered.tidy.known k hk
    rw [found]
    rfl
  · exact age_past ((ordered.past k hk).le.trans rising)
  · obtain ⟨cmd, res, -, executed, -⟩ := apply_execute applied
    obtain ⟨past, young⟩ := execute_young ordered rising executed hk
    exact ⟨past, by omega, age_past past⟩

/-- A request is forgotten and executed again, so that its ID comes back into the queue. -/
theorem table_agrees_returned :
    ∃ s s' out, Reached (shortCodecs firstPut) 2 s ∧ s.dedupOrder = [⟨1, "r"⟩] ∧
      s.apply (shortCodecs firstPut) 20 [0] = some (s', out) ∧ s'.dedupOrder = [⟨20, "r"⟩] ∧
      (∀ k ∈ s.dedupOrder, age 20 k.index = 20 - k.index) ∧
      ∀ k ∈ s'.dedupOrder,
        k.index ≤ 20 ∧ 20 - k.index ≤ s'.dedupWindow ∧ age 20 k.index = 20 - k.index := by
  obtain ⟨s, first, order, s', out, second, order'⟩ :
      ∃ s, (setDedupWindow {} 10).apply (shortCodecs firstPut) 1 [0] = some (s, [0]) ∧
        s.dedupOrder = [⟨1, "r"⟩] ∧
        ∃ s' out, s.apply (shortCodecs firstPut) 20 [0] = some (s', out) ∧
          s'.dedupOrder = [⟨20, "r"⟩] :=
    ⟨_, rfl, rfl, _, _, rfl, rfl⟩
  have reached : Reached (shortCodecs firstPut) 2 s :=
    .apply (.setDedupWindow .new 10) (Nat.zero_le 1) first
  have agrees := (table_agrees _ 2 s reached).2.2.2.2 20 [0] s' out (by decide) second
  exact ⟨s, s', out, reached, order, second, order', agrees⟩

end Store
end EdgeKV
