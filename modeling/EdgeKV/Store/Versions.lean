import EdgeKV.Store.Runs

/-!
The versions of keys along a run of a store: they count the successful writes of the key, and
one of them names one entry.
-/
namespace EdgeKV
namespace Store

section Versions

variable {codecs : Codecs} {window : Nat} {calls : List Call} {states : List Store} {s s' : Store}

/-- The version of a key's record, also of a deleted one; 0 if it has none. -/
def version (s : Store) (key : String) : UInt64 := ((s.data key).map (·.version)).getD 0

/-- How many executed writes on the key have succeeded. -/
def written (calls : List Call) (key : String) : Nat :=
  calls.countP fun x => x.executed && x.cmd.key == key && decide (x.res.status = .ok)

/-- A write that succeeds counts the version of its key up; any other changes nothing. -/
theorem applyLocked_version {cmd : Command} {res : Result}
    (h : s.applyLocked cmd = some (s', res)) :
    (res.status ≠ .ok ∧ s'.data = s.data) ∨
      res.status = .ok ∧ ∃ r, s'.data = Function.update s.data cmd.key (some r) ∧
        r.version = s.version cmd.key + 1 := by
  have version (r : Record) (stored : s.data cmd.key = some r) : s.version cmd.key = r.version := by
    rw [Store.version, stored]
    rfl
  simp only [applyLocked] at h
  split at h
  · cases h
    exact Or.inl ⟨by simp, rfl⟩
  · cases op : cmd.op with
    | put =>
        simp only [op] at h
        cases h
        refine Or.inr ⟨rfl, _, rfl, ?_⟩
        cases stored : s.data cmd.key with
        | none =>
            rw [Store.version, stored]
            rfl
        | some r =>
            rw [version r stored]
            rfl
    | delete =>
        simp only [op] at h
        split at h
        · cases h
          exact Or.inl ⟨by simp, rfl⟩
        · obtain ⟨r, stored, eq⟩ := Option.map_eq_some_iff.mp h
          cases eq
          exact Or.inr ⟨rfl, _, rfl, by rw [version r stored]⟩
    | unknown code =>
        simp only [op] at h
        cases h

/-- What a call does to the records: nothing, or one more write on its key. -/
theorem call_written (calls : List Call) {x : Call}
    (executed : x.before.execute x.index x.cmd = some (x.after, x.res)) :
    (x.after.data = x.before.data ∧ ∀ key, written (calls ++ [x]) key = written calls key) ∨
      ∃ r, x.after.data = Function.update x.before.data x.cmd.key (some r) ∧
        r.version = x.before.version x.cmd.key + 1 ∧
        ∀ key, written (calls ++ [x]) key =
          written calls key + if x.cmd.key = key then 1 else 0 := by
  simp only [written, List.countP_append, List.countP_singleton]
  cases ran : x.executed with
  | false => exact Or.inl ⟨repeated_data ran executed, fun key => by simp⟩
  | true =>
      obtain ⟨s₁, applied, data⟩ := executed_applied ran executed
      rw [data]
      rcases applyLocked_version applied with ⟨failed, same⟩ | ⟨ok, r, changed, version⟩
      · exact Or.inl ⟨same, fun key => by simp [failed]⟩
      · exact Or.inr ⟨r, changed, version, fun key => by simp [ok]⟩

/-- The versions along a run, as long as none wraps around. -/
structure Versions (calls : List Call) (states : List Store) (s : Store) : Prop where
  newest : s ∈ states
  counts : ∀ key, (s.version key).toNat = written calls key
  rising : states.Pairwise fun newer older => ∀ key, older.version key ≤ newer.version key
  below : ∀ t ∈ states, ∀ key, t.version key ≤ s.version key
  names : ∀ t ∈ states, ∀ t' ∈ states, ∀ key, t.version key = t'.version key →
    t.data key = t'.data key

/-- A state that is not behind those before it, and agrees with them where the versions
do. -/
theorem versions_cons (h : Versions calls states s) {calls' : List Call}
    (counts : ∀ key, (s'.version key).toNat = written calls' key)
    (older : ∀ t ∈ states, ∀ key, t.version key ≤ s'.version key)
    (named : ∀ t ∈ states, ∀ key, s'.version key = t.version key → s'.data key = t.data key) :
    Versions calls' (s' :: states) s' := by
  refine ⟨List.mem_cons_self .., counts, List.pairwise_cons.mpr ⟨older, h.rising⟩, ?_, ?_⟩
  · intro t ht key
    rcases List.mem_cons.mp ht with rfl | old
    · exact UInt64.le_refl _
    · exact older t old key
  · intro t ht t' ht' key eq
    rcases List.mem_cons.mp ht with rfl | old
    · rcases List.mem_cons.mp ht' with rfl | old'
      · rfl
      · exact named t' old' key eq
    · rcases List.mem_cons.mp ht' with rfl | old'
      · exact (named t old key eq.symm).symm
      · exact h.names t old t' old' key eq

theorem versions_stay (h : Versions calls states s) {calls' : List Call} (data : s'.data = s.data)
    (same : ∀ key, written calls' key = written calls key) :
    Versions calls' (s' :: states) s' := by
  have version (key : String) : s'.version key = s.version key := by rw [Store.version, data]; rfl
  have older : ∀ t ∈ states, ∀ key, t.version key ≤ s'.version key := fun t ht key => by
    rw [version]
    exact h.below t ht key
  have named : ∀ t ∈ states, ∀ key, s'.version key = t.version key → s'.data key = t.data key := by
    intro t ht key eq
    rw [data]
    exact h.names s h.newest t ht key ((version key).symm.trans eq)
  refine versions_cons h (fun key => ?_) older named
  rw [version, same]
  exact h.counts key

theorem versions_write (h : Versions calls states s) {x : Call} {r : Record}
    (few : written calls x.cmd.key + 1 < 2 ^ 64)
    (data : s'.data = Function.update s.data x.cmd.key (some r))
    (next : r.version = s.version x.cmd.key + 1)
    (one : ∀ key, written (calls ++ [x]) key =
      written calls key + if x.cmd.key = key then 1 else 0) :
    Versions (calls ++ [x]) (s' :: states) s' := by
  have own : (s'.version x.cmd.key).toNat = written calls x.cmd.key + 1 := by
    have here : s'.version x.cmd.key = s.version x.cmd.key + 1 := by
      rw [Store.version, data, Function.update_self]
      exact next
    rw [here, UInt64.toNat_add, h.counts]
    exact Nat.mod_eq_of_lt few
  have other {key : String} (apart : key ≠ x.cmd.key) :
      s'.data key = s.data key ∧ s'.version key = s.version key := by
    have eq : s'.data key = s.data key := by rw [data, Function.update_of_ne apart]
    exact ⟨eq, by rw [Store.version, eq]; rfl⟩
  -- On the key of the write, the new state is ahead of all before it.
  have ahead : ∀ t ∈ states, t.version x.cmd.key < s'.version x.cmd.key := by
    intro t ht
    have le := UInt64.le_iff_toNat_le.mp (h.below t ht x.cmd.key)
    rw [h.counts] at le
    rw [UInt64.lt_iff_toNat_lt, own]
    omega
  have older : ∀ t ∈ states, ∀ key, t.version key ≤ s'.version key := by
    intro t ht key
    by_cases same : key = x.cmd.key
    · rw [same]
      exact UInt64.le_of_lt (ahead t ht)
    · rw [(other same).2]
      exact h.below t ht key
  have named : ∀ t ∈ states, ∀ key, s'.version key = t.version key → s'.data key = t.data key := by
    intro t ht key eq
    by_cases same : key = x.cmd.key
    · rw [same] at eq
      exact absurd (ahead t ht) (by rw [eq]; exact UInt64.lt_irrefl _)
    · rw [(other same).1]
      exact h.names s h.newest t ht key ((other same).2.symm.trans eq)
  refine versions_cons h (fun key => ?_) older named
  rw [one]
  by_cases same : key = x.cmd.key
  · rw [same, own, if_pos rfl]
  · rw [(other same).2, h.counts, if_neg (Ne.symm same), Nat.add_zero]

theorem run_versions (h : Run codecs window calls states s)
    (few : ∀ key, written calls key < 2 ^ 64) : Versions calls states s := by
  induction h with
  | new =>
      refine ⟨List.mem_singleton_self _, fun key => rfl, List.pairwise_singleton .., ?_, ?_⟩
      · intro t ht key
        rw [List.mem_singleton.mp ht]
        exact UInt64.le_refl _
      · intro t ht t' ht' key _
        rw [List.mem_singleton.mp ht, List.mem_singleton.mp ht']
  | @apply calls states s s' index data out cmd res _ rising decoded applied result ih =>
      have executed := apply_executes decoded applied result
      have fewer : ∀ key, written calls key < 2 ^ 64 := fun key => by
        refine Nat.lt_of_le_of_lt ?_ (few key)
        simp only [written, List.countP_append, Nat.le_add_right]
      have before := ih fewer
      rcases call_written calls (x := ⟨index, cmd, s, s', res⟩) executed with
        ⟨same, count⟩ | ⟨r, changed, next, one⟩
      · exact versions_stay before same count
      · refine versions_write before ?_ changed next one
        have bound := few cmd.key
        rw [one, if_pos rfl] at bound
        exact bound
  | restore before captured same restored ih =>
      have table := run_table before
      rw [restoreData_snapshot table.tidy captured (same.trans table.width.symm)] at restored
      cases restored
      exact versions_stay (ih few) rfl fun _ => rfl

theorem get_record {key : String} {e : Entry} (h : s.get key = .ok e) :
    ∃ r, s.data key = some r ∧ e.version = s.version key := by
  simp only [get] at h
  cases stored : s.data key with
  | none =>
      rw [stored] at h
      cases h
  | some r =>
      simp only [stored] at h
      split at h
      · cases h
      · cases h
        refine ⟨r, rfl, ?_⟩
        rw [version, stored]
        rfl

theorem names_get (versions : Versions calls states s) {t t' : Store} (ht : t ∈ states)
    (ht' : t' ∈ states) {key : String} {e e' : Entry} (read : t.get key = .ok e)
    (read' : t'.get key = .ok e') (same : e.version = e'.version) : e = e' := by
  obtain ⟨r, -, version⟩ := get_record read
  obtain ⟨r', -, version'⟩ := get_record read'
  have record := versions.names t ht t' ht' key (version.symm.trans (same.trans version'))
  have equal : t.get key = t'.get key := by rw [get, get, record]
  rw [read, read'] at equal
  exact Except.ok.inj equal

/-- A key and a version name one entry: the version of a key counts its successful writes,
never goes back, and wherever in the run it is read, the entry is the same. -/
theorem version_names_entry (codecs : Codecs) (window : Nat) (calls : List Call)
    (states : List Store) (s : Store) (h : Run codecs window calls states s)
    (few : ∀ key, written calls key < 2 ^ 64) :
    (∀ key, (s.version key).toNat = written calls key) ∧
    (states.Pairwise fun newer older => ∀ key, older.version key ≤ newer.version key) ∧
    ∀ t ∈ states, ∀ t' ∈ states, ∀ key e e', t.get key = .ok e → t'.get key = .ok e' →
      e.version = e'.version → e = e' := by
  have versions := run_versions h few
  refine ⟨versions.counts, versions.rising, fun t ht t' ht' key e e' read read' same => ?_⟩
  exact names_get versions ht ht' read read' same

theorem version_names_entry_retried :
    ∃ x y : Call, Run (shortCodecs firstPut) 10 ([x] ++ [y]) [y.after, x.after, x.before] y.after ∧
      (y.after.version "a").toNat = written ([x] ++ [y]) "a" ∧
      x.after.get "a" = y.after.get "a" := by
  obtain ⟨x, y, run, -, -, read, read'⟩ := retried_run
  have few : ∀ key, written ([x] ++ [y]) key < 2 ^ 64 := fun key =>
    Nat.lt_of_le_of_lt List.countP_le_length (show 2 < 2 ^ 64 by decide)
  obtain ⟨counts, -, same⟩ := version_names_entry (shortCodecs firstPut) 10 _ _ _ run few
  have entry := same x.after (by simp) y.after (by simp) "a" _ _ read read' rfl
  exact ⟨x, y, run, counts "a", by rw [read, read', entry]⟩

end Versions
end Store
end EdgeKV
