import EdgeKV.Store.Codecs
import EdgeKV.Store.Dedup

/-!
Runs of a store: calls of `Apply` at rising indexes, and in between any number of
snapshots that are restored into a store with the same window. A request is executed
once per window, and a restored store goes on as the one that the snapshot was taken of.
-/
namespace EdgeKV
namespace Store

section Replay

variable (codecs : Codecs)

/-- `Apply` for each call in turn, with the results; `none` is a panic. -/
def applyAll (s : Store) : List (Nat × Bytes) → Option (Store × List Bytes)
  | [] => some (s, [])
  | (index, data) :: rest =>
      (s.apply codecs index data).bind fun (s', out) =>
        (applyAll s' rest).map fun (last, outs) => (last, out :: outs)

/-- `Restore` of marshalled data; `none` is an error, which leaves the store as it is. -/
def restoreData (s : Store) (data : Bytes) : Option Store :=
  (codecs.snapshot.unmarshal data).map s.restore

variable {codecs} {s s' : Store} {window : Nat}

theorem applyAll_append (first rest : List (Nat × Bytes)) :
    s.applyAll codecs (first ++ rest) =
      (s.applyAll codecs first).bind fun x =>
        (x.1.applyAll codecs rest).map fun y => (y.1, x.2 ++ y.2) := by
  induction first generalizing s with
  | nil => simp [applyAll]
  | cons call first ih =>
      simp only [List.cons_append, applyAll]
      cases s.apply codecs call.1 call.2 with
      | none => rfl
      | some x =>
          simp only [Option.bind_some, ih, Option.map_bind, Option.bind_map]
          cases x.1.applyAll codecs first with
          | none => rfl
          | some y => simp [Function.comp_def]

theorem new_tidy (window : Nat) : Tidy { dedupWindow := window } :=
  ⟨List.nodup_nil, fun k hk => (by cases hk), fun id e h => by cases h⟩

theorem applyAll_tidy (tidy : s.Tidy) {calls : List (Nat × Bytes)} {outs : List Bytes}
    (h : s.applyAll codecs calls = some (s', outs)) :
    s'.Tidy ∧ s'.dedupWindow = s.dedupWindow := by
  induction calls generalizing s outs with
  | nil => cases h; exact ⟨tidy, rfl⟩
  | cons call rest ih =>
      obtain ⟨⟨s₁, out⟩, applied, h⟩ := Option.bind_eq_some_iff.mp h
      obtain ⟨⟨last, outs'⟩, later, eq⟩ := Option.map_eq_some_iff.mp h
      cases eq
      obtain ⟨cmd, res, -, executed, -⟩ := apply_execute applied
      obtain ⟨tidy₁, window₁⟩ := execute_tidy tidy executed
      obtain ⟨tidy', window'⟩ := ih tidy₁ later
      exact ⟨tidy', window'.trans window₁⟩

/-- `Restore` of a snapshot gives back the store, whatever store it is called on. -/
theorem restoreData_snapshot (tidy : s.Tidy) {data : Bytes} {other : Store}
    (captured : (machine codecs window).snapshot s data)
    (same : other.dedupWindow = s.dedupWindow) : other.restoreData codecs data = some s := by
  obtain ⟨snap, taken, rfl⟩ := captured
  rw [restoreData, codecs.snapshot.round, Option.map_some, restore_snapshot tidy taken same]

/-- A store restored from a snapshot goes on as the one that the snapshot was taken of:
for any calls before and after it, the results are those of one store that applies all
of them, and so are the reads at the end and whatever is applied later. -/
theorem snapshot_suffix_replay (codecs : Codecs) (window : Nat) (first rest : List (Nat × Bytes))
    (s : Store) (outs : List Bytes)
    (applied : applyAll codecs { dedupWindow := window } first = some (s, outs)) (data : Bytes)
    (captured : (machine codecs window).snapshot s data) (other : Store)
    (same : other.dedupWindow = window) :
    ∃ r, other.restoreData codecs data = some r ∧
      applyAll codecs { dedupWindow := window } (first ++ rest) =
        (r.applyAll codecs rest).map (fun x => (x.1, outs ++ x.2)) ∧
      ∀ full fullOuts,
        applyAll codecs { dedupWindow := window } (first ++ rest) = some (full, fullOuts) →
        ∃ last lastOuts, r.applyAll codecs rest = some (last, lastOuts) ∧
          fullOuts = outs ++ lastOuts ∧ (∀ key, last.get key = full.get key) ∧
          ∀ later, last.applyAll codecs later = full.applyAll codecs later := by
  obtain ⟨tidy, width⟩ := applyAll_tidy (new_tidy window) applied
  have whole : applyAll codecs { dedupWindow := window } (first ++ rest) =
      (s.applyAll codecs rest).map fun x => (x.1, outs ++ x.2) := by
    rw [applyAll_append, applied, Option.bind_some]
  refine ⟨s, restoreData_snapshot tidy captured (same.trans width.symm), whole, ?_⟩
  intro full fullOuts h
  rw [whole] at h
  obtain ⟨⟨last, lastOuts⟩, suffix, eq⟩ := Option.map_eq_some_iff.mp h
  cases eq
  exact ⟨last, lastOuts, suffix, rfl, fun _ => rfl, fun _ => rfl⟩

theorem snapshot_suffix_replay_put :
    ∃ (data : Bytes) (r : Store),
      restoreData (shortCodecs firstPut) { dedupOrder := [⟨5, "q"⟩], dedupWindow := 10 } data =
        some r ∧
      applyAll (shortCodecs firstPut) { dedupWindow := 10 } [(1, [0]), (2, [0])] =
        (r.applyAll (shortCodecs firstPut) [(2, [0])]).map fun x => (x.1, [0] :: x.2) := by
  obtain ⟨s, applied, records, order, table⟩ :
      ∃ s, applyAll (shortCodecs firstPut) { dedupWindow := 10 } [(1, [0])] = some (s, [[0]]) ∧
        s.data = Function.update (fun _ => none) "a" (some { value := [7], version := 1 }) ∧
        s.dedupOrder = [⟨1, "r"⟩] ∧ s.dedup "r" = some ⟨1, some { version := 1 }⟩ :=
    ⟨_, rfl, rfl, rfl, rfl⟩
  have taken : s.Snapshots
      { records := [⟨"a", [7], 1, false, false, 0, 0⟩]
        dedup := [⟨"r", 1, some { version := 1 }⟩] } := by
    refine ⟨List.nodup_singleton _, fun x => ?_, by simp [order, table]⟩
    rw [List.mem_singleton, records]
    constructor
    · rintro rfl
      exact ⟨"a", _, Function.update_self .., rfl⟩
    · rintro ⟨key, r, stored, rfl⟩
      by_cases same : key = "a"
      · subst same
        rw [Function.update_self] at stored
        cases stored
        rfl
      · rw [Function.update_of_ne same] at stored
        cases stored
  obtain ⟨r, restored, replayed, -⟩ := snapshot_suffix_replay (shortCodecs firstPut) 10 [(1, [0])]
    [(2, [0])] s [[0]] applied _ ⟨_, taken, rfl⟩ { dedupOrder := [⟨5, "q"⟩], dedupWindow := 10 } rfl
  exact ⟨_, r, restored, replayed⟩

end Replay

/-- A call of `Apply` in a run, with the stores around it and the result it returned. -/
structure Call where
  index : Nat
  cmd : Command
  before : Store
  after : Store
  res : Result

/-- The command was executed, not answered from the table. -/
def Call.executed (x : Call) : Bool :=
  x.cmd.requestId == "" || ((x.before.evictDedupLocked x.index).dedup x.cmd.requestId).isNone

/-- A run of a new store: the calls so far, the states it went through (the newest
first) and the state it is in. -/
inductive Run (codecs : Codecs) (window : Nat) : List Call → List Store → Store → Prop
  | new : Run codecs window [] [{ dedupWindow := window }] { dedupWindow := window }
  | apply {calls : List Call} {states : List Store} {s s' : Store} {index : Nat}
      {data out : Bytes} {cmd : Command} {res : Result} (h : Run codecs window calls states s)
      (rising : ∀ x ∈ calls, x.index < index)
      (decoded : codecs.command.unmarshal data = some cmd)
      (applied : s.apply codecs index data = some (s', out))
      (result : codecs.result.unmarshal out = some res) :
      Run codecs window (calls ++ [⟨index, cmd, s, s', res⟩]) (s' :: states) s'
  | restore {calls : List Call} {states : List Store} {s s' other : Store} {data : Bytes}
      (h : Run codecs window calls states s)
      (captured : (machine codecs window).snapshot s data)
      (same : other.dedupWindow = window)
      (restored : other.restoreData codecs data = some s') :
      Run codecs window calls (s' :: states) s'

theorem Run.newest {codecs : Codecs} {window : Nat} {calls : List Call} {states : List Store}
    {s : Store} (h : Run codecs window calls states s) : s ∈ states := by
  cases h <;> exact List.mem_cons_self

section Table

variable {codecs : Codecs} {window index : Nat} {calls : List Call} {states : List Store}
  {s s' : Store} {cmd : Command} {res : Result}

/-- What is left at the front of the queue is young. -/
theorem evictLoop_head {order : List DedupKey} {dedup : String → Option DedupEntry}
    {k : DedupKey} {rest : List DedupKey}
    (h : (evictLoop window index order dedup).1 = k :: rest) : age index k.index ≤ window := by
  induction order generalizing dedup with
  | nil => cases h
  | cons oldest order ih =>
      simp only [evictLoop] at h
      split at h
      next young =>
        cases h
        exact young
      · exact ih h

/-- With the queue in the order of the log, eviction forgets just what is too old. -/
theorem evicted_iff (tidy : s.Tidy)
    (sorted : s.dedupOrder.Pairwise fun a b => a.index < b.index)
    (past : ∀ k ∈ s.dedupOrder, k.index ≤ index) {id : String} {e : DedupEntry} :
    (s.evictDedupLocked index).dedup id = some e ↔
      s.dedup id = some e ∧ index ≤ e.index + s.dedupWindow := by
  obtain ⟨gone, split, -, forgotten⟩ := evictLoop_spec s.dedupWindow index s.dedupOrder s.dedup
  constructor
  · intro found
    have tidy' : (s.evictDedupLocked index).Tidy := evict_tidy tidy
    have listed := tidy'.listed id e found
    have old := (forgotten id).symm.trans found
    split at old
    · cases old
    · refine ⟨old, ?_⟩
      -- The entry is not before the head of what is left, and the head is young.
      cases left : (s.evictDedupLocked index).dedupOrder with
      | nil =>
          rw [left] at listed
          cases listed
      | cons k rest =>
          have young : age index k.index ≤ s.dedupWindow := evictLoop_head left
          have whole : s.dedupOrder = gone ++ (k :: rest) := split.trans (congrArg (gone ++ ·) left)
          rw [whole] at sorted past
          have le : k.index ≤ e.index := by
            rw [left] at listed
            rcases List.mem_cons.mp listed with same | inside
            · exact (congrArg DedupKey.index same).ge
            · exact ((List.pairwise_cons.mp (List.pairwise_append.mp sorted).2.1).1 _ inside).le
          have before := past k (List.mem_append_right _ (List.mem_cons_self ..))
          rw [age, if_pos before] at young
          omega
  · rintro ⟨found, young⟩
    exact evict_young tidy found young (past _ (tidy.listed id e found))

/-- What the table of a run's store tells of its calls. -/
structure Table (window : Nat) (calls : List Call) (s : Store) : Prop where
  tidy : s.Tidy
  width : s.dedupWindow = window
  sorted : s.dedupOrder.Pairwise fun a b => a.index < b.index
  past : ∀ k ∈ s.dedupOrder, ∃ x ∈ calls, k.index = x.index
  known : ∀ id e, s.dedup id = some e → id ≠ "" ∧ ∃ l x r, calls = l ++ x :: r ∧
    x.executed = true ∧ x.cmd.requestId = id ∧ x.index = e.index ∧ e.result = some x.res ∧
    ∀ y ∈ r, y.executed = true → y.cmd.requestId ≠ id
  kept : ∀ y ∈ calls, y.executed = true → y.cmd.requestId ≠ "" →
    (∃ e, s.dedup y.cmd.requestId = some e ∧ e.index = y.index) ∨
      ∃ x ∈ calls, y.index + window < x.index

theorem table_new : Table window [] { dedupWindow := window } where
  tidy := new_tidy window
  width := rfl
  sorted := .nil
  past k hk := by cases hk
  known id e h := by cases h
  kept y hy := by cases hy

theorem evict_sorted (sorted : s.dedupOrder.Pairwise fun a b => a.index < b.index) :
    (s.evictDedupLocked index).dedupOrder.Pairwise fun a b => a.index < b.index := by
  obtain ⟨gone, split, -, -⟩ := evictLoop_spec s.dedupWindow index s.dedupOrder s.dedup
  rw [split] at sorted
  exact (List.pairwise_append.mp sorted).2.1

theorem evict_sub {k : DedupKey} (h : k ∈ (s.evictDedupLocked index).dedupOrder) :
    k ∈ s.dedupOrder := by
  obtain ⟨gone, split, -, -⟩ := evictLoop_spec s.dedupWindow index s.dedupOrder s.dedup
  rw [split]
  exact List.mem_append_right _ h

theorem table_past (h : Table window calls s) (rising : ∀ x ∈ calls, x.index < index) :
    ∀ k ∈ s.dedupOrder, k.index < index := by
  intro k hk
  obtain ⟨x, hx, same⟩ := h.past k hk
  rw [same]
  exact rising x hx

section Step

variable (h : Table window calls s) {x : Call} (rising : ∀ y ∈ calls, y.index < x.index)
include h rising

theorem table_lookup {id : String} {e : DedupEntry} :
    (s.evictDedupLocked x.index).dedup id = some e ↔
      s.dedup id = some e ∧ x.index ≤ e.index + window := by
  rw [← h.width]
  exact evicted_iff h.tidy h.sorted fun k hk => (table_past h rising k hk).le

/-- What eviction leaves in the table is still known of. -/
theorem evicted_known {id : String} {e : DedupEntry}
    (found : (s.evictDedupLocked x.index).dedup id = some e)
    (other : x.executed = true → x.cmd.requestId ≠ id) :
    id ≠ "" ∧ ∃ l y r, calls ++ [x] = l ++ y :: r ∧ y.executed = true ∧ y.cmd.requestId = id ∧
      y.index = e.index ∧ e.result = some y.res ∧
      ∀ z ∈ r, z.executed = true → z.cmd.requestId ≠ id := by
  obtain ⟨named, l, y, r, split, ran, rest, index, result, last⟩ :=
    h.known id e ((table_lookup h rising).mp found).1
  refine ⟨named, l, y, r ++ [x], by rw [split]; simp, ran, rest, index, result,
    fun z hz ran' => ?_⟩
  rcases List.mem_append.mp hz with old | now
  · exact last z old ran'
  · rw [List.mem_singleton.mp now] at ran' ⊢
    exact other ran'

/-- What eviction takes out of the table is too old. -/
theorem evicted_kept {y : Call} (hy : y ∈ calls) (ran : y.executed = true)
    (named : y.cmd.requestId ≠ "") :
    (∃ e, (s.evictDedupLocked x.index).dedup y.cmd.requestId = some e ∧ e.index = y.index) ∨
      ∃ z ∈ calls ++ [x], y.index + window < z.index := by
  rcases h.kept y hy ran named with ⟨e, found, same⟩ | ⟨z, hz, aged⟩
  · by_cases young : x.index ≤ e.index + window
    · exact Or.inl ⟨e, (table_lookup h rising).mpr ⟨found, young⟩, same⟩
    · exact Or.inr ⟨x, List.mem_append_right _ (List.mem_singleton_self _), by omega⟩
  · exact Or.inr ⟨z, List.mem_append_left _ hz, aged⟩

/-- A call that is not remembered leaves the table as eviction does. -/
theorem table_evict (silent : x.executed = true → x.cmd.requestId = "") :
    Table window (calls ++ [x]) (s.evictDedupLocked x.index) where
  tidy := evict_tidy h.tidy
  width := h.width
  sorted := evict_sorted h.sorted
  past k hk := by
    obtain ⟨y, hy, same⟩ := h.past k (evict_sub hk)
    exact ⟨y, List.mem_append_left _ hy, same⟩
  known id e found := by
    have named := (h.known id e ((table_lookup h rising).mp found).1).1
    refine evicted_known h rising found fun ran => ?_
    rw [silent ran]
    exact named.symm
  kept y hy ran named := by
    rcases List.mem_append.mp hy with old | now
    · exact evicted_kept h rising old ran named
    · rw [List.mem_singleton.mp now] at ran named
      exact absurd (silent ran) named

/-- A call that is executed under a request ID is remembered. -/
theorem table_remember (ran : x.executed = true) (named : x.cmd.requestId ≠ "")
    (new : (s.evictDedupLocked x.index).dedup x.cmd.requestId = none) :
    Table window (calls ++ [x])
      ((s.evictDedupLocked x.index).remember x.index x.cmd.requestId x.res) := by
  have tidy : ((s.evictDedupLocked x.index).remember x.index x.cmd.requestId x.res).Tidy :=
    remember_tidy (evict_tidy h.tidy) fun _ => new
  rw [remember, if_neg named] at tidy ⊢
  refine
    { tidy
      width := h.width
      sorted := List.pairwise_append.mpr
        ⟨evict_sorted h.sorted, List.pairwise_singleton .., fun k hk k' hk' => ?_⟩
      past := fun k hk => ?_
      known := fun id e found => ?_
      kept := fun y hy ran' named' => ?_ }
  · rw [List.mem_singleton.mp hk']
    exact table_past h rising k (evict_sub hk)
  · rcases List.mem_append.mp hk with old | now
    · obtain ⟨y, hy, same⟩ := h.past k (evict_sub old)
      exact ⟨y, List.mem_append_left _ hy, same⟩
    · rw [List.mem_singleton.mp now]
      exact ⟨x, List.mem_append_right _ (List.mem_singleton_self _), rfl⟩
  · by_cases same : id = x.cmd.requestId
    · subst same
      simp only [Function.update_self] at found
      cases found
      exact ⟨named, calls, x, [], rfl, ran, rfl, rfl, rfl, fun z hz => by cases hz⟩
    · simp only [Function.update_of_ne same] at found
      exact evicted_known h rising found fun _ eq => same eq.symm
  · by_cases same : y.cmd.requestId = x.cmd.requestId
    · rcases List.mem_append.mp hy with old | now
      · rcases evicted_kept h rising old ran' named' with ⟨e, found, -⟩ | aged
        · rw [same, new] at found
          cases found
        · exact Or.inr aged
      · rw [List.mem_singleton.mp now]
        exact Or.inl ⟨_, Function.update_self .., rfl⟩
    · rcases List.mem_append.mp hy with old | now
      · simp only [Function.update_of_ne same]
        exact evicted_kept h rising old ran' named'
      · exact absurd (congrArg (·.cmd.requestId) (List.mem_singleton.mp now)) same

end Step

/-- The table depends on the records in no way. -/
theorem table_congr (h : Table window calls s) (dedup : s'.dedup = s.dedup)
    (order : s'.dedupOrder = s.dedupOrder) (width : s'.dedupWindow = s.dedupWindow) :
    Table window calls s' where
  tidy := ⟨order ▸ h.tidy.distinct, by rw [order, dedup]; exact h.tidy.known,
    by rw [order, dedup]; exact h.tidy.listed⟩
  width := width.trans h.width
  sorted := order ▸ h.sorted
  past := order ▸ h.past
  known := dedup ▸ h.known
  kept := by rw [dedup]; exact h.kept

theorem remember_table (index : Nat) (id : String) (res : Result) {t : Store} (dedup : t.dedup = s.dedup)
    (order : t.dedupOrder = s.dedupOrder) (width : t.dedupWindow = s.dedupWindow) :
    (t.remember index id res).dedup = (s.remember index id res).dedup ∧
      (t.remember index id res).dedupOrder = (s.remember index id res).dedupOrder ∧
      (t.remember index id res).dedupWindow = (s.remember index id res).dedupWindow := by
  by_cases empty : id = ""
  · simp [remember, empty, dedup, order, width]
  · simp [remember, empty, dedup, order, width]

theorem executed_iff {x : Call} : x.executed = true ↔
    (x.cmd.requestId ≠ "" →
      (x.before.evictDedupLocked x.index).dedup x.cmd.requestId = none) := by
  rw [Call.executed, Bool.or_eq_true, beq_iff_eq, Option.isNone_iff_eq_none, or_iff_not_imp_left]

/-- The table along a run. -/
theorem table_execute {x : Call} (h : Table window calls x.before)
    (rising : ∀ y ∈ calls, y.index < x.index)
    (executed : x.before.execute x.index x.cmd = some (x.after, x.res)) :
    Table window (calls ++ [x]) x.after := by
  have spec := execute_spec executed
  generalize eq : x.after = s' at spec
  generalize same : x.res = res at spec
  cases spec with
  | repeated named found =>
      refine table_evict h rising fun ran => ?_
      rw [executed_iff.mp ran named] at found
      cases found
  | @fresh s₁ _ new applied =>
      have ran := executed_iff.mpr new
      obtain ⟨dedup, order, width⟩ := applyLocked_table applied
      obtain ⟨dedup', order', width'⟩ := remember_table x.index x.cmd.requestId res dedup order width
      refine table_congr ?_ dedup' order' width'
      by_cases named : x.cmd.requestId = ""
      · rw [remember, if_pos named]
        exact table_evict h rising fun _ => named
      · rw [← same]
        exact table_remember h rising ran named (new named)

end Table

section Calls

variable {codecs : Codecs} {window : Nat} {calls : List Call} {states : List Store} {s : Store}

theorem apply_executes {s' : Store} {index : Nat} {data out : Bytes} {cmd : Command} {res : Result}
    (decoded : codecs.command.unmarshal data = some cmd)
    (applied : s.apply codecs index data = some (s', out))
    (result : codecs.result.unmarshal out = some res) :
    s.execute index cmd = some (s', res) := by
  obtain ⟨cmd', res', decoded', executed, rfl⟩ := apply_execute applied
  rw [codecs.result.round] at result
  cases result
  cases decoded.symm.trans decoded'
  exact executed

theorem apply_marshal (codecs : Codecs) (s : Store) (index : Nat) (cmd : Command) :
    s.apply codecs index (codecs.command.marshal cmd) =
      (s.execute index cmd).map fun x => (x.1, codecs.result.marshal x.2) := by
  rw [Store.apply, codecs.command.round]
  rfl

/-- A run goes on with any command, encoded. -/
theorem Run.call {s' : Store} {index : Nat} {cmd : Command} {res : Result}
    (h : Run codecs window calls states s) (rising : ∀ x ∈ calls, x.index < index)
    (executed : s.execute index cmd = some (s', res)) :
    Run codecs window (calls ++ [⟨index, cmd, s, s', res⟩]) (s' :: states) s' := by
  refine .apply h rising (codecs.command.round cmd) ?_ (codecs.result.round res)
  rw [apply_marshal, executed]
  rfl

theorem run_table (h : Run codecs window calls states s) : Table window calls s := by
  induction h with
  | new => exact table_new
  | @apply calls states s s' index data out cmd res _ rising decoded applied result ih =>
      exact table_execute (x := ⟨index, cmd, s, s', res⟩) ih rising
        (apply_executes decoded applied result)
  | restore _ captured same restored ih =>
      rw [restoreData_snapshot ih.tidy captured (same.trans ih.width.symm)] at restored
      cases restored
      exact ih

/-- Up to each of its calls, a run is a run. -/
theorem run_call {l r : List Call} {x : Call} (h : Run codecs window calls states s)
    (split : calls = l ++ x :: r) :
    ∃ states', Run codecs window l states' x.before ∧ (∀ y ∈ l, y.index < x.index) ∧
      x.before.execute x.index x.cmd = some (x.after, x.res) := by
  induction h generalizing r with
  | new =>
      have impossible := congrArg List.length split
      simp at impossible
  | @apply calls states s s' index data out cmd res before rising decoded applied result ih =>
      rcases List.eq_nil_or_concat r with rfl | ⟨r', last, rfl⟩
      · obtain ⟨rfl, eq⟩ := List.append_inj' split rfl
        cases eq
        exact ⟨states, before, rising, apply_executes decoded applied result⟩
      · rw [List.concat_eq_append, ← List.cons_append, ← List.append_assoc] at split
        exact ih (List.append_inj' split rfl).1
  | restore _ _ _ _ ih => exact ih split

/-- Where a call is executed, the records change as `applyLocked` says. -/
theorem executed_applied {x : Call} (ran : x.executed = true)
    (executed : x.before.execute x.index x.cmd = some (x.after, x.res)) :
    ∃ s₁, x.before.applyLocked x.cmd = some (s₁, x.res) ∧ x.after.data = s₁.data := by
  have spec := execute_spec executed
  generalize x.after = s' at spec ⊢
  generalize x.res = res at spec ⊢
  cases spec with
  | repeated named found =>
      rw [executed_iff.mp ran named] at found
      cases found
  | @fresh s₁ _ new applied =>
      have data : (s₁.remember x.index x.cmd.requestId res).data = s₁.data := by
        rw [remember]
        split <;> rfl
      rw [data]
      -- `applyLocked` reads the records alone, and eviction does not touch them.
      have visible : (x.before.evictDedupLocked x.index).visible = x.before.visible := rfl
      simp only [applyLocked, visible, evict_data] at applied ⊢
      split at applied
      next stale =>
        cases applied
        exact ⟨_, if_pos stale, rfl⟩
      next current =>
        rw [if_neg current]
        cases op : x.cmd.op with
        | put =>
            simp only [op] at applied
            cases applied
            exact ⟨_, rfl, rfl⟩
        | delete =>
            simp only [op] at applied ⊢
            split at applied
            next missing =>
              cases applied
              exact ⟨_, if_pos missing, rfl⟩
            next present =>
              obtain ⟨r, stored, eq⟩ := Option.map_eq_some_iff.mp applied
              cases eq
              rw [if_neg present, stored]
              exact ⟨_, rfl, rfl⟩
        | unknown code =>
            simp only [op] at applied
            cases applied

/-- Where a call is not executed, the records stay. -/
theorem repeated_data {x : Call} (repeated : x.executed = false)
    (executed : x.before.execute x.index x.cmd = some (x.after, x.res)) :
    x.after.data = x.before.data := by
  have spec := execute_spec executed
  generalize x.after = s' at spec ⊢
  generalize x.res = res at spec
  cases spec with
  | repeated named found => rfl
  | fresh new applied =>
      rw [executed_iff.mpr new] at repeated
      cases repeated

/-- Where a call is not executed, it is answered as the last one under its request ID
that was. -/
theorem repeated_last {x : Call} {l : List Call} (h : Table window l x.before)
    (rising : ∀ y ∈ l, y.index < x.index) (repeated : x.executed = false)
    (executed : x.before.execute x.index x.cmd = some (x.after, x.res)) :
    x.after.data = x.before.data ∧ ∃ l₁ y l₂, l = l₁ ++ y :: l₂ ∧ y.executed = true ∧
      y.cmd.requestId = x.cmd.requestId ∧ x.index ≤ y.index + window ∧
      (∀ z ∈ l₂, z.executed = true → z.cmd.requestId ≠ x.cmd.requestId) ∧ x.res = y.res := by
  have spec := execute_spec executed
  generalize x.after = s' at spec ⊢
  generalize x.res = res at spec ⊢
  cases spec with
  | fresh new applied =>
      rw [executed_iff.mpr new] at repeated
      cases repeated
  | @repeated prev named found =>
      obtain ⟨there, young⟩ := (table_lookup h rising).mp found
      obtain ⟨-, l₁, y, l₂, split, ran, same, index, result, last⟩ := h.known _ _ there
      refine ⟨rfl, l₁, y, l₂, split, ran, same, index ▸ young, last, ?_⟩
      rw [result]
      rfl

/-- A call without a request ID leaves every later lookup as it was. -/
theorem unnamed_lookup {x : Call} {l : List Call} (h : Table window l x.before)
    (rising : ∀ y ∈ l, y.index < x.index) (unnamed : x.cmd.requestId = "")
    (executed : x.before.execute x.index x.cmd = some (x.after, x.res)) {k : Nat}
    (le : x.index ≤ k) (id : String) :
    (x.after.evictDedupLocked k).dedup id = (x.before.evictDedupLocked k).dedup id := by
  have after := table_execute h rising executed
  have table : x.after.dedup = (x.before.evictDedupLocked x.index).dedup := by
    have spec := execute_spec executed
    generalize x.after = s' at spec ⊢
    generalize x.res = res at spec
    cases spec with
    | repeated named found => rfl
    | fresh new applied =>
        rw [remember, if_pos unnamed]
        exact (applyLocked_table applied).1
  have past : ∀ y ∈ l ++ [x], y.index ≤ k := by
    intro y hy
    rcases List.mem_append.mp hy with old | now
    · exact (rising y old).le.trans le
    · rw [List.mem_singleton.mp now]
      exact le
  have pastBefore : ∀ d ∈ x.before.dedupOrder, d.index ≤ k := fun d hd =>
    (table_past h rising d hd).le.trans le
  have pastAfter : ∀ d ∈ x.after.dedupOrder, d.index ≤ k := fun d hd => by
    obtain ⟨y, hy, same⟩ := after.past d hd
    rw [same]
    exact past y hy
  refine Option.ext fun e => ?_
  simp only [evicted_iff after.tidy after.sorted pastAfter,
    evicted_iff h.tidy h.sorted pastBefore, table, table_lookup h rising, after.width, h.width]
  constructor
  · rintro ⟨⟨found, -⟩, young⟩
    exact ⟨found, young⟩
  · rintro ⟨found, young⟩
    exact ⟨⟨found, le.trans young⟩, young⟩

/-- Request IDs execute once per window, and a repeated request gets the answer of the
last execution; commands without one are always executed and change no decision. -/
theorem requests_execute_once (codecs : Codecs) (window : Nat) (calls : List Call)
    (states : List Store) (s : Store) (h : Run codecs window calls states s) (l r : List Call)
    (x : Call) (split : calls = l ++ x :: r) :
    (x.executed = true →
      ∃ s₁, x.before.applyLocked x.cmd = some (s₁, x.res) ∧ x.after.data = s₁.data) ∧
    (x.cmd.requestId ≠ "" → (x.executed = true ↔
      ¬ ∃ y ∈ l, y.executed = true ∧ y.cmd.requestId = x.cmd.requestId ∧
        x.index - y.index ≤ window)) ∧
    (x.executed = false → x.after.data = x.before.data ∧
      ∃ l₁ y l₂, l = l₁ ++ y :: l₂ ∧ y.executed = true ∧ y.cmd.requestId = x.cmd.requestId ∧
        (∀ z ∈ l₂, z.executed = true → z.cmd.requestId ≠ x.cmd.requestId) ∧ x.res = y.res) ∧
    (x.cmd.requestId = "" → x.executed = true ∧
      ∀ k, x.index ≤ k → ∀ id,
        (x.after.evictDedupLocked k).dedup id = (x.before.evictDedupLocked k).dedup id) := by
  obtain ⟨states', before, rising, executed⟩ := run_call h split
  have table := run_table before
  refine ⟨fun ran => executed_applied ran executed, fun named => ⟨fun ran => ?_, fun none_ => ?_⟩,
    fun repeated => ?_, fun unnamed => ⟨executed_iff.mpr fun named => absurd unnamed named,
      fun k le id => unnamed_lookup table rising unnamed executed le id⟩⟩
  · rintro ⟨y, hy, ran', same, young⟩
    have lt := rising y hy
    rcases table.kept y hy ran' (same ▸ named) with ⟨e, found, index⟩ | ⟨z, hz, aged⟩
    · have lookup := (table_lookup table rising).mpr ⟨found, by omega⟩
      rw [same, executed_iff.mp ran named] at lookup
      cases lookup
    · have := rising z hz
      omega
  · by_contra repeated
    obtain ⟨-, l₁, y, l₂, rfl, ran', same, young, -⟩ :=
      repeated_last table rising (Bool.eq_false_iff.mpr repeated) executed
    exact none_ ⟨y, by simp, ran', same, by omega⟩
  · obtain ⟨data, l₁, y, l₂, split', ran', same, -, last, answer⟩ :=
      repeated_last table rising repeated executed
    exact ⟨data, l₁, y, l₂, split', ran', same, last, answer⟩

/-- The same put twice: the first is executed, the second answered from the table. -/
theorem retried_run :
    ∃ x y : Call, Run (shortCodecs firstPut) 10 ([x] ++ [y]) [y.after, x.after, x.before] y.after ∧
      y.cmd.requestId = "r" ∧ y.executed = false ∧
      x.after.get "a" = .ok ⟨[7], 1, false, 0, 0⟩ ∧
      y.after.get "a" = .ok ⟨[7], 1, false, 0, 0⟩ := by
  obtain ⟨s₁, first, read, found, s₂, second, read'⟩ :
      ∃ s₁, apply { dedupWindow := 10 } (shortCodecs firstPut) 1 [0] = some (s₁, [0]) ∧
        s₁.get "a" = .ok ⟨[7], 1, false, 0, 0⟩ ∧
        ((s₁.evictDedupLocked 2).dedup "r").isNone = false ∧
        ∃ s₂, s₁.apply (shortCodecs firstPut) 2 [0] = some (s₂, [0]) ∧
          s₂.get "a" = .ok ⟨[7], 1, false, 0, 0⟩ :=
    ⟨_, rfl, rfl, rfl, _, rfl, rfl⟩
  have once := Run.apply .new (fun x hx => by cases hx) (show _ = some firstPut from rfl) first rfl
  have twice := Run.apply once (fun x hx => by rw [List.mem_singleton.mp hx]; exact Nat.lt_succ_self 1)
    (show _ = some firstPut from rfl) second rfl
  exact ⟨_, _, twice, rfl, found, read, read'⟩

theorem requests_execute_once_retried :
    ∃ x y : Call, Run (shortCodecs firstPut) 10 ([x] ++ [y]) [y.after, x.after, x.before] y.after ∧
      y.executed = false ∧ y.after.data = y.before.data ∧ y.res = x.res := by
  obtain ⟨x, y, run, -, repeated, -⟩ := retried_run
  obtain ⟨-, -, again, -⟩ := requests_execute_once (shortCodecs firstPut) 10 _ _ _ run [x] [] y rfl
  obtain ⟨data, l₁, z, l₂, split, -, -, -, answer⟩ := again repeated
  have same : z = x :=
    List.mem_singleton.mp (split ▸ List.mem_append_right _ (List.mem_cons_self ..))
  exact ⟨x, y, run, repeated, data, same ▸ answer⟩

end Calls

end Store
end EdgeKV
