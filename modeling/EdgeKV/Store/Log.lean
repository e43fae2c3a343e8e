import EdgeKV.Store.Spec

/-!
The store along a log. If no request comes back later than the window allows, each
request is executed where it first stands in the log, by the specification's step,
and answered with the same result wherever it stands again.
-/
namespace EdgeKV

/-- The command of a log entry; a no-op has none. -/
def Entry.command (codecs : Codecs) (e : Entry) : Option Command :=
  match e.type with
  | .noop => none
  | .normal => codecs.command.unmarshal e.data

/-- The request that a log entry is an attempt of. -/
def Entry.requestId (codecs : Codecs) (e : Entry) : Option String :=
  (e.command codecs).map (·.requestId)

theorem requestId_of_command {codecs : Codecs} {e : Entry} {cmd : Command}
    (h : e.command codecs = some cmd) : e.requestId codecs = some cmd.requestId := by
  rw [Entry.requestId, h]
  rfl

theorem requestId_command {codecs : Codecs} {e : Entry} {id : String}
    (h : e.requestId codecs = some id) :
    e.type = .normal ∧ ∃ cmd, e.command codecs = some cmd ∧ cmd.requestId = id := by
  obtain ⟨cmd, command, same⟩ := Option.map_eq_some_iff.mp h
  refine ⟨?_, cmd, command, same⟩
  cases type : e.type with
  | normal => rfl
  | noop => simp [Entry.command, type] at command

namespace Store

variable (codecs : Codecs) (window : Nat) (L : List EdgeKV.Entry)

/-- The store after the first `k` entries of the log. -/
def along (k : Nat) : Store :=
  ((machine codecs window).replay (L.take k)).getD (machine codecs window).init

/-- Request `id` stands at position `k` of the log. -/
def Requested (id : String) (k : Nat) : Prop :=
  ∃ e, L[k]? = some e ∧ e.requestId codecs = some id

/-- What a log must be like for its requests to be executed once each. -/
structure Orderly : Prop where
  indexed : Indexed L
  applied : ((machine codecs window).replay L).isSome
  named : ∀ id k, Requested codecs L id k → id ≠ ""
  within : ∀ id j k, Requested codecs L id j → Requested codecs L id k → k ≤ j + window

variable {codecs window L}

section Replay

theorem replay_take (applied : ((machine codecs window).replay L).isSome) (k : Nat) :
    (machine codecs window).replay (L.take k) = some (along codecs window L k) := by
  have split : (machine codecs window).replay L =
      ((machine codecs window).replay (L.take k)).bind fun s =>
        (L.drop k).foldlM (machine codecs window).step s := by
    rw [StateMachine.replay, ← L.take_append_drop k, List.foldlM_append, L.take_append_drop k]
    rfl
  rw [split] at applied
  obtain ⟨s, hs⟩ := Option.isSome_iff_exists.mp applied
  obtain ⟨s₀, first, -⟩ := Option.bind_eq_some_iff.mp hs
  rw [along, first]
  rfl

theorem along_succ (applied : ((machine codecs window).replay L).isSome) {k : Nat}
    {e : EdgeKV.Entry} (at_ : L[k]? = some e) :
    (machine codecs window).step (along codecs window L k) e =
      some (along codecs window L (k + 1)) := by
  have grown : L.take (k + 1) = L.take k ++ [e] := by
    rw [List.take_add_one, at_]
    rfl
  have whole := replay_take applied (k + 1)
  rwa [grown, StateMachine.replay_concat, replay_take applied k, Option.bind_some] at whole

variable (orderly : Orderly codecs window L)
include orderly

theorem noop_step {k : Nat} {e : EdgeKV.Entry} (at_ : L[k]? = some e) (noop : e.type = .noop) :
    along codecs window L (k + 1) = along codecs window L k := by
  have step := along_succ orderly.applied at_
  rw [StateMachine.step, noop] at step
  exact (Option.some.inj step).symm

theorem command_step {k : Nat} {e : EdgeKV.Entry} (at_ : L[k]? = some e)
    (normal : e.type = .normal) :
    ∃ cmd res, e.command codecs = some cmd ∧
      (along codecs window L k).execute (k + 1) cmd = some (along codecs window L (k + 1), res) := by
  have step := along_succ orderly.applied at_
  rw [StateMachine.step, normal] at step
  obtain ⟨⟨s', out⟩, applied, eq⟩ := Option.map_eq_some_iff.mp step
  obtain ⟨cmd, res, decoded, executed, -⟩ := apply_execute applied
  obtain rfl : s' = along codecs window L (k + 1) := eq
  rw [orderly.indexed k e at_] at executed
  exact ⟨cmd, res, by rw [Entry.command, normal, decoded], executed⟩

end Replay

section Requests

variable (orderly : Orderly codecs window L)
include orderly

theorem along_tidy {k : Nat} (le : k ≤ L.length) :
    (along codecs window L k).Tidy ∧ (along codecs window L k).dedupWindow = window := by
  induction k with
  | zero => exact ⟨⟨List.nodup_nil, fun k hk => (by cases hk), fun id e h => by cases h⟩, rfl⟩
  | succ k ih =>
      obtain ⟨tidy, same⟩ := ih (by omega)
      have at_ : L[k]? = some L[k] := List.getElem?_eq_getElem le
      cases type : L[k].type with
      | noop =>
          rw [noop_step orderly at_ type]
          exact ⟨tidy, same⟩
      | normal =>
          obtain ⟨cmd, res, -, executed⟩ := command_step orderly at_ type
          obtain ⟨tidy', same'⟩ := execute_tidy tidy executed
          exact ⟨tidy', same'.trans same⟩

/-- A request that has not stood in the log is not in the table. -/
theorem dedup_absent {id : String} {k : Nat} (le : k ≤ L.length)
    (absent : ∀ j < k, ¬ Requested codecs L id j) : (along codecs window L k).dedup id = none := by
  induction k with
  | zero => rfl
  | succ k ih =>
      have before := ih (by omega) fun j lt => absent j (by omega)
      have at_ : L[k]? = some L[k] := List.getElem?_eq_getElem le
      cases type : L[k].type with
      | noop =>
          rw [noop_step orderly at_ type]
          exact before
      | normal =>
          obtain ⟨cmd, res, command, executed⟩ := command_step orderly at_ type
          have other : id ≠ cmd.requestId := by
            rintro rfl
            exact absent k (by omega) ⟨_, at_, requestId_of_command command⟩
          have evicted : ((along codecs window L k).evictDedupLocked (k + 1)).dedup id = none :=
            evict_none before
          generalize along codecs window L (k + 1) = s' at executed ⊢
          cases execute_spec executed with
          | repeated named found => exact evicted
          | fresh new applied =>
              rw [← (applyLocked_table applied).1] at evicted
              rw [remember]
              split
              · exact evicted
              · exact (Function.update_of_ne other ..).trans evicted

/-- Where a request first stands it is executed and remembered. -/
theorem first_executed {k : Nat} {e : EdgeKV.Entry} {cmd : Command} {res : Result}
    (at_ : L[k]? = some e) (first : ∀ j < k, ¬ Requested codecs L cmd.requestId j)
    (executed : (along codecs window L k).execute (k + 1) cmd =
      some (along codecs window L (k + 1), res)) :
    ∃ s₁, ((along codecs window L k).evictDedupLocked (k + 1)).applyLocked cmd = some (s₁, res) ∧
      along codecs window L (k + 1) = s₁.remember (k + 1) cmd.requestId res := by
  have inside := (List.getElem?_eq_some_iff.mp at_).1
  have absent : ((along codecs window L k).evictDedupLocked (k + 1)).dedup cmd.requestId = none :=
    evict_none (dedup_absent orderly inside.le first)
  generalize along codecs window L (k + 1) = s' at executed ⊢
  cases execute_spec executed with
  | repeated named found =>
      rw [absent] at found
      cases found
  | fresh new applied => exact ⟨_, applied, rfl⟩

/-- It stays in the table for the length of the window. -/
theorem dedup_remembered {i k : Nat} {e : EdgeKV.Entry} {cmd : Command} {res : Result}
    (at_ : L[i]? = some e) (command : e.command codecs = some cmd)
    (first : ∀ j < i, ¬ Requested codecs L cmd.requestId j)
    (executed : (along codecs window L i).execute (i + 1) cmd =
      some (along codecs window L (i + 1), res))
    (lt : i < k) (young : k ≤ i + 1 + window) (le : k ≤ L.length) :
    (along codecs window L k).dedup cmd.requestId = some { index := i + 1, result := some res } := by
  have named := orderly.named _ _ ⟨e, at_, requestId_of_command command⟩
  induction k, lt using Nat.le_induction with
  | base =>
      obtain ⟨s₁, -, eq⟩ := first_executed orderly at_ first executed
      rw [eq, remember, if_neg named]
      exact Function.update_self ..
  | succ k lt ih =>
      have before := ih (by omega) (by omega)
      have here : L[k]? = some L[k] := List.getElem?_eq_getElem le
      obtain ⟨tidy, same⟩ := along_tidy orderly (Nat.le_of_succ_le le)
      cases type : L[k].type with
      | noop =>
          rw [noop_step orderly here type]
          exact before
      | normal =>
          obtain ⟨cmd', res', -, executed'⟩ := command_step orderly here type
          have kept : ((along codecs window L k).evictDedupLocked (k + 1)).dedup cmd.requestId =
              some { index := i + 1, result := some res } :=
            evict_young tidy before (by rw [same]; simp only; omega) (by simp only; omega)
          generalize along codecs window L (k + 1) = s' at executed' ⊢
          cases execute_spec executed' with
          | repeated _ found => exact kept
          | fresh new applied =>
              rw [remember, (applyLocked_table applied).1]
              split
              · rw [(applyLocked_table applied).1]
                exact kept
              next named' =>
                have other : cmd.requestId ≠ cmd'.requestId := by
                  intro eq
                  rw [← eq, kept] at new
                  cases new named
                exact (Function.update_of_ne other ..).trans kept

/-- Where it stands again it is answered as before, and no record changes. -/
theorem repeated_answer {i k : Nat} {e e' : EdgeKV.Entry} {cmd cmd' : Command}
    {res res' : Result} (at_ : L[i]? = some e) (command : e.command codecs = some cmd)
    (first : ∀ j < i, ¬ Requested codecs L cmd.requestId j)
    (executed : (along codecs window L i).execute (i + 1) cmd =
      some (along codecs window L (i + 1), res))
    (lt : i < k) (there : L[k]? = some e') (command' : e'.command codecs = some cmd')
    (same : cmd'.requestId = cmd.requestId)
    (executed' : (along codecs window L k).execute (k + 1) cmd' =
      some (along codecs window L (k + 1), res')) :
    res' = res ∧ (along codecs window L (k + 1)).data = (along codecs window L k).data := by
  have inside := (List.getElem?_eq_some_iff.mp there).1
  have requested : Requested codecs L cmd.requestId i := ⟨e, at_, requestId_of_command command⟩
  have requested' : Requested codecs L cmd.requestId k :=
    ⟨e', there, same ▸ requestId_of_command command'⟩
  have young := orderly.within _ i k requested requested'
  obtain ⟨tidy, width⟩ := along_tidy orderly inside.le
  have kept : ((along codecs window L k).evictDedupLocked (k + 1)).dedup cmd.requestId =
      some { index := i + 1, result := some res } :=
    evict_young tidy
      (dedup_remembered orderly at_ command first executed lt (by omega) inside.le)
      (by rw [width]; simp only; omega) (by simp only; omega)
  generalize along codecs window L (k + 1) = s' at executed' ⊢
  cases execute_spec executed' with
  | repeated named found =>
      rw [same, kept] at found
      cases found
      exact ⟨rfl, rfl⟩
  | fresh new applied =>
      rw [same, kept] at new
      cases new (orderly.named _ _ requested)

/-- Where it first stands the store takes the specification's step. -/
theorem first_step {k : Nat} {e : EdgeKV.Entry} {cmd : Command} {res : Result} {w : Write}
    (at_ : L[k]? = some e) (means : cmd.write = some w)
    (first : ∀ j < k, ¬ Requested codecs L cmd.requestId j)
    (executed : (along codecs window L k).execute (k + 1) cmd =
      some (along codecs window L (k + 1), res)) :
    kvSpec.step (along codecs window L k).view (.write w) =
      ((along codecs window L (k + 1)).view, .wrote res) := by
  obtain ⟨s₁, applied, eq⟩ := first_executed orderly at_ first executed
  have data : (s₁.remember (k + 1) cmd.requestId res).data = s₁.data := by
    rw [remember]
    split <;> rfl
  have seen := applyLocked_view means applied
  rw [view_congr evict_data] at seen
  rw [eq, view_congr data]
  exact seen

end Requests
end Store
end EdgeKV
