import EdgeKV.Store.Versions

/-!
Compare-and-set has a single winner. A version is expected with success only while it is the
key's version, which the winner then counts up; and a key is created with success only while it
is not there, so that between two creations it was deleted.
-/
namespace EdgeKV
namespace Store

variable {codecs : Codecs} {window : Nat} {calls : List Call} {states : List Store} {s s' : Store}
  {cmd : Command} {res : Result} {key : String}

/-- An executed conditional put that succeeds. -/
structure Call.Wins (x : Call) (key : String) (n : UInt64) : Prop where
  executed : x.executed = true
  put : x.cmd.op = .put
  key : x.cmd.key = key
  conditional : x.cmd.hasExpectedVersion = true
  expected : x.cmd.expectedVersion = n
  ok : x.res.status = .ok

/-- An executed delete that succeeds. -/
structure Call.Deletes (x : Call) (key : String) : Prop where
  executed : x.executed = true
  delete : x.cmd.op = .delete
  key : x.cmd.key = key
  ok : x.res.status = .ok

/-- The key is there for a reader. -/
def Alive (s : Store) (key : String) : Prop := ∃ r, s.data key = some r ∧ r.deleted = false

theorem visible_alive (h : s.Alive key) : s.visible key = s.version key := by
  obtain ⟨r, stored, present⟩ := h
  simp [visible, version, stored, present]

theorem visible_ne (h : s.visible key ≠ 0) : s.visible key = s.version key := by
  cases stored : s.data key with
  | none => simp [visible, stored] at h
  | some r =>
      refine visible_alive ⟨r, stored, ?_⟩
      cases deleted : r.deleted with
      | false => rfl
      | true => simp [visible, stored, deleted] at h

/-- Where a conditional command succeeds, the version is the expected one. -/
theorem applyLocked_expected (h : s.applyLocked cmd = some (s', res))
    (conditional : cmd.hasExpectedVersion = true) (ok : res.status = .ok) :
    s.visible cmd.key = cmd.expectedVersion := by
  by_contra other
  rw [applyLocked, if_pos ⟨conditional, fun same => other same.symm⟩] at h
  cases h
  cases ok

/-- A put that succeeds leaves its key there. -/
theorem applyLocked_put (h : s.applyLocked cmd = some (s', res)) (put : cmd.op = .put)
    (ok : res.status = .ok) : s'.Alive cmd.key := by
  simp only [applyLocked, put] at h
  split at h
  · cases h
    cases ok
  · cases h
    exact ⟨_, Function.update_self .., rfl⟩

/-- Only a delete of the key that succeeds takes it away. -/
theorem applyLocked_alive (h : s.applyLocked cmd = some (s', res)) (alive : s.Alive key) :
    s'.Alive key ∨ (cmd.op = .delete ∧ cmd.key = key ∧ res.status = .ok) := by
  obtain ⟨r, stored, present⟩ := alive
  rcases applyLocked_version h with ⟨-, same⟩ | ⟨ok, r', changed, -⟩
  · exact Or.inl ⟨r, by rw [same]; exact stored, present⟩
  · by_cases own : cmd.key = key
    · cases op : cmd.op with
      | put => exact Or.inl (own ▸ applyLocked_put h op ok)
      | delete => exact Or.inr ⟨rfl, own, ok⟩
      | unknown code =>
          simp only [applyLocked, op] at h
          split at h
          · cases h
            cases ok
          · cases h
    · refine Or.inl ⟨r, ?_, present⟩
      rw [changed, Function.update_of_ne (Ne.symm own)]
      exact stored

theorem call_alive {x : Call} (executed : x.before.execute x.index x.cmd = some (x.after, x.res))
    (alive : x.before.Alive key) : x.after.Alive key ∨ x.Deletes key := by
  cases ran : x.executed with
  | false =>
      have same : x.after.data = x.before.data := repeated_data ran executed
      obtain ⟨r, stored, present⟩ := alive
      exact Or.inl ⟨r, by rw [same]; exact stored, present⟩
  | true =>
      obtain ⟨s₁, applied, data⟩ := executed_applied ran executed
      refine (applyLocked_alive applied alive).imp ?_ fun ⟨delete, own, ok⟩ => ⟨ran, delete, own, ok⟩
      rintro ⟨r, stored, present⟩
      exact ⟨r, by rw [data]; exact stored, present⟩

/-- After a put that has won, the key is there, unless it was deleted since. -/
theorem run_alive {l m : List Call} {x : Call} {n : UInt64} (h : Run codecs window calls states s)
    (split : calls = l ++ x :: m) (won : x.Wins key n) :
    s.Alive key ∨ ∃ z ∈ m, z.Deletes key := by
  induction h generalizing m with
  | new =>
      have impossible := congrArg List.length split
      simp at impossible
  | @apply calls states s s' index data out cmd res before rising decoded applied result ih =>
      have executed := apply_executes decoded applied result
      rcases List.eq_nil_or_concat m with rfl | ⟨m', last, rfl⟩
      · obtain ⟨rfl, eq⟩ := List.append_inj' split rfl
        cases eq
        obtain ⟨s₁, applied, data⟩ := executed_applied won.executed executed
        obtain ⟨r, stored, present⟩ := applyLocked_put applied won.put won.ok
        rw [won.key] at stored
        exact Or.inl ⟨r, (congrFun data key).trans stored, present⟩
      · rw [List.concat_eq_append, ← List.cons_append, ← List.append_assoc] at split
        obtain ⟨old, eq⟩ := List.append_inj' split rfl
        cases eq
        rw [List.concat_eq_append]
        rcases ih old with alive | ⟨z, member, deletes⟩
        · refine (call_alive (x := ⟨index, cmd, s, s', res⟩) executed alive).imp_right ?_
          intro deletes
          exact ⟨_, List.mem_append_right _ (List.mem_singleton_self _), deletes⟩
        · exact Or.inr ⟨z, List.mem_append_left _ member, deletes⟩
  | restore before captured same restored ih =>
      have table := run_table before
      rw [restoreData_snapshot table.tidy captured (same.trans table.width.symm)] at restored
      cases restored
      exact ih split

/-- Up to a call that wins, the key was written as often as the version says that it expects. -/
theorem wins_version {l r : List Call} {x : Call} {n : UInt64} (h : Run codecs window calls states s)
    (few : ∀ key, written calls key < 2 ^ 64) (split : calls = l ++ x :: r) (won : x.Wins key n) :
    x.before.visible key = n ∧ (x.before.version key).toNat = written l key := by
  obtain ⟨states', before, -, executed⟩ := run_call h split
  have fewer : ∀ key, written l key < 2 ^ 64 := by
    intro key
    refine Nat.lt_of_le_of_lt ?_ (few key)
    rw [split, written, written, List.countP_append]
    exact Nat.le_add_right _ _
  obtain ⟨s₁, applied, -⟩ := executed_applied won.executed executed
  have visible := applyLocked_expected applied won.conditional won.ok
  rw [won.key, won.expected] at visible
  exact ⟨visible, (run_versions before fewer).counts key⟩

/-- A call that wins is a write of its key. -/
theorem wins_written {l m : List Call} {x : Call} {n : UInt64} (won : x.Wins key n) :
    written l key < written (l ++ x :: m) key := by
  have counted : written [x] key = 1 := by simp [written, won.executed, won.key, won.ok]
  have parts : written (l ++ x :: m) key = written l key + (written [x] key + written m key) := by
    rw [← List.singleton_append, written, List.countP_append, List.countP_append]
    rfl
  omega

/-- Compare-and-set has a single winner. -/
theorem cas_single_winner (codecs : Codecs) (window : Nat) (calls : List Call)
    (states : List Store) (s : Store) (h : Run codecs window calls states s)
    (few : ∀ key, written calls key < 2 ^ 64) :
    (∀ l m r x y, calls = l ++ x :: (m ++ y :: r) →
      (∀ key n, 1 ≤ n → x.Wins key n → ¬ y.Wins key n) ∧
      (∀ key, x.Wins key 0 → y.Wins key 0 → ∃ z ∈ m, z.Deletes key)) ∧
    ∀ x ∈ calls, x.executed = true → x.res.status ≠ .ok → x.after.data = x.before.data := by
  constructor
  · intro l m r x y split
    have split' : calls = (l ++ x :: m) ++ y :: r := by simpa using split
    constructor
    · intro key n positive won won'
      obtain ⟨visible, count⟩ := wins_version h few split won
      obtain ⟨visible', count'⟩ := wins_version h few split' won'
      have nonzero : n ≠ 0 := by
        rintro rfl
        exact absurd positive (by decide)
      have version := visible_ne (visible ▸ nonzero)
      have version' := visible_ne (visible' ▸ nonzero)
      have more : written l key < written (l ++ x :: m) key := wins_written won
      rw [← count, ← count', ← version, ← version', visible, visible'] at more
      exact Nat.lt_irrefl _ more
    · intro key won won'
      obtain ⟨states', before, -, -⟩ := run_call h split'
      refine (run_alive before rfl won).resolve_left fun alive => ?_
      obtain ⟨visible', count'⟩ := wins_version h few split' won'
      have more : written l key < written (l ++ x :: m) key := wins_written won
      rw [← count', ← visible_alive alive, visible'] at more
      exact Nat.not_lt_zero _ more
  · intro x member ran failed
    obtain ⟨l, r, split⟩ := List.append_of_mem member
    obtain ⟨-, -, -, executed⟩ := run_call h split
    obtain ⟨s₁, applied, data⟩ := executed_applied ran executed
    rw [data]
    exact ((applyLocked_version applied).resolve_right fun ⟨ok, _⟩ => failed ok).2

/-- Creating the key if it is absent, and deleting it. -/
def createLock (requestId : String) : Command :=
  { op := .put, key := "lock", hasExpectedVersion := true, requestId }

def deleteLock (requestId : String) : Command := { op := .delete, key := "lock", requestId }

/-- A lock is taken, given back and taken again. -/
theorem cas_single_winner_lock : ∃ states s x z y,
    Run (shortCodecs firstPut) 10 ([x] ++ [z] ++ [y]) states s ∧ x.Wins "lock" 0 ∧ y.Wins "lock" 0 ∧
      ∃ z' ∈ [z], z'.Deletes "lock" := by
  obtain ⟨s₁, res₁, first, ran₁, ok₁, s₂, res₂, second, s₃, res₃, third, ran₃, ok₃⟩ :
      ∃ s₁ res₁, execute { dedupWindow := 10 } 1 (createLock "a") = some (s₁, res₁) ∧
        Call.executed ⟨1, createLock "a", { dedupWindow := 10 }, s₁, res₁⟩ = true ∧
        res₁.status = .ok ∧
        ∃ s₂ res₂, s₁.execute 2 (deleteLock "b") = some (s₂, res₂) ∧
          ∃ s₃ res₃, s₂.execute 3 (createLock "c") = some (s₃, res₃) ∧
            Call.executed ⟨3, createLock "c", s₂, s₃, res₃⟩ = true ∧ res₃.status = .ok :=
    ⟨_, _, rfl, rfl, rfl, _, _, rfl, _, _, rfl, rfl, rfl⟩
  have taken : Run (shortCodecs firstPut) 10 _ _ s₁ := Run.call .new (fun x no => nomatch no) first
  have given := taken.call
    (fun x there => by rw [List.mem_singleton.mp there]; exact Nat.one_lt_two) second
  have again := given.call
    (fun x there => by
      rcases List.mem_append.mp there with one | two
      · rw [List.mem_singleton.mp one]
        exact (by decide : 1 < 3)
      · rw [List.mem_singleton.mp two]
        exact Nat.lt_succ_self 2) third
  have won : Call.Wins ⟨1, createLock "a", { dedupWindow := 10 }, s₁, res₁⟩ "lock" 0 :=
    ⟨ran₁, rfl, rfl, rfl, rfl, ok₁⟩
  have won' : Call.Wins ⟨3, createLock "c", s₂, s₃, res₃⟩ "lock" 0 := ⟨ran₃, rfl, rfl, rfl, rfl, ok₃⟩
  obtain ⟨winners, -⟩ := cas_single_winner (shortCodecs firstPut) 10 _ _ _ again fun key =>
    Nat.lt_of_le_of_lt List.countP_le_length (show 3 < 2 ^ 64 by decide)
  exact ⟨_, _, _, _, _, again, won, won', (winners [] [_] [] _ _ rfl).2 "lock" won won'⟩

end Store
end EdgeKV
