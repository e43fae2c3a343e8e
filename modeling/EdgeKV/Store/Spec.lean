import EdgeKV.Linearizability.History
import EdgeKV.Store.Dedup

/-!
The sequential specification of the store, key by key: a version that counts
successful writes, and what is visible of the key. Tombstones, request IDs and
timestamps are not part of it.
-/
namespace EdgeKV

/-- What a `PUT` stores beside the version. -/
structure Payload where
  value : Bytes
  cacheable : Bool
  ttlSeconds : UInt32
  deriving DecidableEq, Repr

inductive WriteKind
  | put (payload : Payload)
  | delete
  deriving DecidableEq, Repr

/-- A write as its client means it. -/
structure Write where
  key : String
  kind : WriteKind
  expected : Option UInt64
  deriving DecidableEq, Repr

inductive Request
  | write (w : Write)
  | get (key : String)
  deriving DecidableEq, Repr

inductive Response
  | wrote (res : Result)
  | got (entry : Option (Payload × UInt64))
  deriving DecidableEq, Repr

/-- One key: its version, and its payload unless it is missing or deleted. -/
structure KeyState where
  live : Option Payload := none
  version : UInt64 := 0
  deriving DecidableEq, Repr

namespace KeyState

variable (st : KeyState)

/-- A missing or deleted key has version 0. -/
def visible : UInt64 := if st.live.isSome then st.version else 0

def write (kind : WriteKind) (expected : Option UInt64) : KeyState × Result :=
  if expected.any (· ≠ st.visible) then
    (st, { status := .versionMismatch, version := st.visible })
  else match kind with
    | .put payload =>
        ({ live := some payload, version := st.version + 1 },
          { status := .ok, version := st.version + 1 })
    | .delete =>
        if st.visible = 0 then (st, { status := .notFound })
        else
          ({ live := none, version := st.version + 1 },
            { status := .ok, version := st.version + 1 })

def read : Option (Payload × UInt64) := st.live.map fun payload => (payload, st.version)

end KeyState

/-- The sequential store. -/
def kvSpec : Linearizability.Spec (String → KeyState) Request Response where
  init := fun _ => {}
  step := fun st request =>
    match request with
    | .write w =>
        let (next, res) := (st w.key).write w.kind w.expected
        (Function.update st w.key next, .wrote res)
    | .get key => (st, .got (st key).read)

/-- What the client means by a command; there is nothing to mean by an unknown one. -/
def Command.write (cmd : Command) : Option Write :=
  let expected := if cmd.hasExpectedVersion then some cmd.expectedVersion else none
  match cmd.op with
  | .put =>
      some
        { key := cmd.key
          kind := .put
            { value := cmd.value, cacheable := cmd.cacheable, ttlSeconds := cmd.ttlSeconds }
          expected }
  | .delete => some { key := cmd.key, kind := .delete, expected }
  | .unknown _ => none

namespace Store

def Record.view (r : Record) : KeyState where
  live :=
    if r.deleted then none
    else some { value := r.value, cacheable := r.cacheable, ttlSeconds := r.ttlSeconds }
  version := r.version

/-- The specification's state of a store. -/
def view (s : Store) (key : String) : KeyState := ((s.data key).map Record.view).getD {}

/-- What a reader learns from an entry; when it was written is not specified. -/
def Entry.read (e : Entry) : Payload × UInt64 :=
  ({ value := e.value, cacheable := e.cacheable, ttlSeconds := e.ttlSeconds }, e.version)

variable {s s' : Store} {cmd : Command} {res : Result}

theorem visible_view (key : String) : (s.view key).visible = s.visible key := by
  cases stored : s.data key with
  | none => simp [view, visible, KeyState.visible, stored]
  | some r =>
      by_cases gone : r.deleted
      · simp [view, visible, KeyState.visible, stored, Record.view, gone]
      · simp [view, visible, KeyState.visible, stored, Record.view, gone]

theorem view_update (r : Record) (key : String) :
    view { s with data := Function.update s.data key (some r) } =
      Function.update s.view key r.view := by
  funext k
  by_cases same : k = key
  · subst same
    simp [view]
  · simp [view, Function.update_of_ne same]

theorem view_congr (data : s'.data = s.data) : s'.view = s.view := by
  funext k
  rw [view, view, data]

/-- `Get` reads what the specification says. -/
theorem get_view (key : String) :
    kvSpec.step s.view (.get key) = (s.view, .got ((s.get key).toOption.map Entry.read)) := by
  simp only [kvSpec, view, get, KeyState.read]
  cases s.data key with
  | none => rfl
  | some r =>
      by_cases gone : r.deleted
      · simp [Record.view, gone, Except.toOption]
      · simp [Record.view, gone, Except.toOption, Entry.read]

/-- Executing a command is the specification's step for what the client means by it. -/
theorem applyLocked_view {w : Write} (means : cmd.write = some w)
    (applied : s.applyLocked cmd = some (s', res)) :
    kvSpec.step s.view (.write w) = (s'.view, .wrote res) := by
  have mismatch (expected : Option UInt64)
      (h : expected = if cmd.hasExpectedVersion then some cmd.expectedVersion else none) :
      expected.any (· ≠ (s.view cmd.key).visible) = true ↔
        (cmd.hasExpectedVersion ∧ cmd.expectedVersion ≠ s.visible cmd.key) := by
    rw [h, visible_view]
    cases cmd.hasExpectedVersion <;> simp
  have version (r : Record) (stored : s.data cmd.key = some r) :
      (s.view cmd.key).version = r.version := by
    simp [view, stored, Record.view]
  have unchanged : Function.update s.view cmd.key (s.view cmd.key) = s.view :=
    Function.update_eq_self ..
  simp only [applyLocked] at applied
  cases op : cmd.op with
  | put =>
      simp only [Command.write, op] at means applied
      cases means
      simp only [kvSpec, KeyState.write, mismatch _ rfl]
      split at applied
      next stale =>
        cases applied
        simp only [if_pos stale, unchanged, visible_view]
      next current =>
        cases applied
        have next : (s.view cmd.key).version = ((s.data cmd.key).getD {}).version := by
          cases stored : s.data cmd.key with
          | none => simp [view, stored]
          | some r => exact version r stored
        simp only [if_neg current, view_update, Record.view, next]
        rfl
  | delete =>
      simp only [Command.write, op] at means applied
      cases means
      simp only [kvSpec, KeyState.write, mismatch _ rfl]
      split at applied
      next stale =>
        cases applied
        simp only [if_pos stale, unchanged, visible_view]
      next current =>
        simp only [if_neg current, visible_view]
        split at applied
        next missing =>
          cases applied
          simp only [if_pos missing, unchanged]
        next present =>
          obtain ⟨r, stored, eq⟩ := Option.map_eq_some_iff.mp applied
          cases eq
          simp only [if_neg present, view_update, Record.view, version r stored]
          rfl
  | unknown code => simp [Command.write, op] at means

end Store
end EdgeKV
