import EdgeKV.RaftStore.Refinement

/-!
The store as a system: critical sections of concurrent calls, one file being renamed, and
crashes in between. `SaveSnapshot` gives up its lock while it writes the file, so `Save`
calls may fall into it; whole `SaveSnapshot` calls exclude each other.
-/
namespace EdgeKV.RaftStore

open Wal (Segment LogSegment Journal)

variable {ID : Type}

/-- A `SaveSnapshot` between its two locks: its file, and whether that is in place. -/
structure Pending where
  file : SnapFile
  discardLog : Bool
  written : Bool := false
  deriving DecidableEq, Repr

structure Opened (ID : Type) where
  mem : Mem ID
  pending : Option Pending := none
  deriving DecidableEq, Repr

/-- A crash leaves the files only. -/
structure System (ID : Type) where
  disk : Disk ID
  up : Option (Opened ID) := none
  deriving DecidableEq, Repr

/-- `load` is `Open` with `Load`; `start`, `rename` and `publish` make up `SaveSnapshot`. -/
inductive Action (ID : Type)
  | load
  | save (hs : Option (HardState ID)) (entries : List Entry)
  | start (snapMeta : SnapshotMeta) (data : Bytes) (discardLog : Bool)
  | rename
  | publish
  deriving DecidableEq, Repr

/-- What an action does: its effects, the first of which carry out `ops`, what `Load`
returned, and the index of a snapshot whose call returned. -/
structure Move (ID : Type) where
  effects : List (Effect ID) := []
  ops : List (StorageOp ID) := []
  loaded : Option (Loaded ID) := none
  returned : Option Nat := none
  up : Opened ID
  deriving DecidableEq, Repr

namespace System

variable (opts : Options ID) (s : System ID)

def act : Action ID → Option (Move ID)
  | .load =>
      if s.up.isSome then none
      else
        s.disk.load.toOption.map fun (loaded, mem) =>
          { effects := s.disk.gcLocked mem.snapMeta, loaded := some loaded, up := { mem } }
  | .save hs entries =>
      s.up.map fun st =>
        { effects := s.disk.save opts st.mem hs entries
          ops := EdgeKV.save hs entries
          up := { st with mem := st.mem.saved hs entries } }
  | .start snapMeta data discardLog =>
      s.up.bind fun st =>
        if st.pending.isSome then none
        else match s.disk.startSnapshot st.mem snapMeta data discardLog with
          | none => some { returned := some snapMeta.lastIncludedIndex, up := st }
          | some (effects, mem, file) =>
              some { effects, up := { mem, pending := some { file, discardLog } } }
  | .rename =>
      s.up.bind fun st => st.pending.bind fun p =>
        if p.written then none
        else
          some
            { effects := [.rename p.file]
              ops := [.snapshot p.file.path p.file.data p.discardLog]
              up := { st with pending := some { p with written := true } } }
  | .publish =>
      s.up.bind fun st => st.pending.bind fun p =>
        if p.written then
          let mem := st.mem.publish p.file.snapMeta
          some
            { effects := s.disk.gcLocked mem.snapMeta
              returned := some p.file.index
              up := { mem } }
        else none

/-- The state after a move. -/
def next (mv : Move ID) : System ID := ⟨s.disk.applyAll mv.effects, some mv.up⟩

/-- The state after a crash that let the first `k` effects of a move happen. -/
def cut (mv : Move ID) (k : Nat) : System ID := ⟨s.disk.applyAll (mv.effects.take k), none⟩

end System

section Inversion

variable {opts : Options ID} {s : System ID} {mv : Move ID}

theorem act_load (h : s.act opts .load = some mv) :
    s.up = none ∧ ∃ loaded mem, s.disk.load = .ok (loaded, mem) ∧
      mv = { effects := s.disk.gcLocked mem.snapMeta, loaded := some loaded, up := { mem } } := by
  rw [System.act] at h
  split at h
  · cases h
  next down =>
    refine ⟨by simpa using down, ?_⟩
    cases read : s.disk.load with
    | error err => rw [read] at h; cases h
    | ok result =>
        rw [read] at h
        cases h
        exact ⟨result.1, result.2, rfl, rfl⟩

theorem act_save {hs : Option (HardState ID)} {entries : List Entry}
    (h : s.act opts (.save hs entries) = some mv) :
    ∃ st, s.up = some st ∧
      mv =
        { effects := s.disk.save opts st.mem hs entries
          ops := EdgeKV.save hs entries
          up := { st with mem := st.mem.saved hs entries } } := by
  obtain ⟨st, up, rfl⟩ := Option.map_eq_some_iff.mp h
  exact ⟨st, up, rfl⟩

theorem act_start {snapMeta : SnapshotMeta} {data : Bytes} {discardLog : Bool}
    (h : s.act opts (.start snapMeta data discardLog) = some mv) :
    ∃ st, s.up = some st ∧ st.pending = none ∧
      ((s.disk.startSnapshot st.mem snapMeta data discardLog = none ∧
          mv = { returned := some snapMeta.lastIncludedIndex, up := st }) ∨
        ∃ effects mem file,
          s.disk.startSnapshot st.mem snapMeta data discardLog = some (effects, mem, file) ∧
            mv = { effects, up := { mem, pending := some { file, discardLog } } }) := by
  obtain ⟨st, up, h⟩ := Option.bind_eq_some_iff.mp h
  split at h
  · cases h
  next idle =>
    refine ⟨st, up, by simpa using idle, ?_⟩
    split at h
    next stale =>
      cases h
      exact Or.inl ⟨stale, rfl⟩
    next started =>
      cases h
      exact Or.inr ⟨_, _, _, started, rfl⟩

theorem act_rename (h : s.act opts .rename = some mv) :
    ∃ st p, s.up = some st ∧ st.pending = some p ∧ p.written = false ∧
      mv =
        { effects := [.rename p.file]
          ops := [.snapshot p.file.path p.file.data p.discardLog]
          up := { st with pending := some { p with written := true } } } := by
  obtain ⟨st, up, h⟩ := Option.bind_eq_some_iff.mp h
  obtain ⟨p, pending, h⟩ := Option.bind_eq_some_iff.mp h
  split at h
  · cases h
  next unwritten =>
    cases h
    exact ⟨st, p, up, pending, by simpa using unwritten, rfl⟩

theorem act_publish (h : s.act opts .publish = some mv) :
    ∃ st p, s.up = some st ∧ st.pending = some p ∧ p.written = true ∧
      mv =
        { effects := s.disk.gcLocked (st.mem.publish p.file.snapMeta).snapMeta
          returned := some p.file.index
          up := { mem := st.mem.publish p.file.snapMeta } } := by
  obtain ⟨st, up, h⟩ := Option.bind_eq_some_iff.mp h
  obtain ⟨p, pending, h⟩ := Option.bind_eq_some_iff.mp h
  split at h
  next written =>
    cases h
    exact ⟨st, p, up, pending, written, rfl⟩
  · cases h

end Inversion

section Wellformed

variable {opts : Options ID} {d : Disk ID} {st : Opened ID} {cur : Option SnapFile} {p : Pending}

/-- The snapshot of a call in progress: newer than the known one, and the newest once its
file is in place. Until then its first valid segment exists. -/
structure Prepared (d : Disk ID) (mem : Mem ID) (cur : Option SnapFile) (p : Pending) : Prop where
  newer : ∀ m, mem.snapMeta = some m → m.lastIncludedIndex < p.file.index
  placed : p.written = true → cur = some p.file
  current : p.written = false → Current mem cur
  first : p.written = false → minSegment cur ≤ p.file.snapMeta.minWalSegment
  exists_ : p.written = false → p.file.snapMeta.minWalSegment ≤ d.wal.active.segment.seq
  keeps : p.written = false → p.discardLog = false →
    p.file.snapMeta.minWalSegment = minSegment cur

/-- An open store agrees with its files on the snapshots. -/
structure Well (d : Disk ID) (st : Opened ID) (cur : Option SnapFile) : Prop
    extends Sound d cur where
  knows : Knows st.mem cur
  idle : st.pending = none → Current st.mem cur
  prepared : ∀ p, st.pending = some p → Prepared d st.mem cur p

theorem active_le (d : Disk ID) (effects : List (Effect ID)) :
    d.wal.active.segment.seq ≤ (d.applyAll effects).wal.active.segment.seq := by
  induction effects generalizing d with
  | nil => exact Nat.le_refl _
  | cons e effects ih =>
      refine Nat.le_trans ?_ (ih (d.apply e))
      cases e with
      | create tag => exact Nat.le_succ _
      | append rec | remove seq | rename file | unlink path => exact Nat.le_refl _

theorem load_current (newest : Newest d.snaps cur) {loaded : Loaded ID} {mem : Mem ID}
    (read : d.load = .ok (loaded, mem)) : Current mem cur := by
  obtain ⟨st, -, eq⟩ := load_ok newest read
  cases eq
  rfl

theorem load_well (h : Sound d cur) {loaded : Loaded ID} {mem : Mem ID}
    (read : d.load = .ok (loaded, mem)) :
    Well (d.applyAll (d.gcLocked mem.snapMeta)) { mem } cur := by
  have current := load_current h.newest read
  have sound := applyAll_whole (P := (Sound · cur)) (gc_sound h (current_knows current))
  exact ⟨sound, current_knows current, fun _ => current, fun p hp => nomatch hp⟩

theorem save_well (opts : Options ID) (h : Well d st cur) (hs : Option (HardState ID))
    (entries : List Entry) :
    Well (d.applyAll (d.save opts st.mem hs entries))
      { st with mem := st.mem.saved hs entries } cur := by
  have sound : Sound (d.applyAll (d.save opts st.mem hs entries)) cur :=
    applyAll_whole (P := (Sound · cur)) (save_sound opts h.toSound h.knows)
  refine ⟨sound, h.knows, h.idle, fun p hp => ?_⟩
  have before := h.prepared p hp
  exact
    { newer := before.newer
      placed := before.placed
      current := before.current
      first := before.first
      exists_ := fun unwritten => (before.exists_ unwritten).trans (active_le d _)
      keeps := before.keeps }

theorem start_well (h : Well d st cur) (idle : st.pending = none) {snapMeta : SnapshotMeta}
    {data : Bytes} {discardLog : Bool} {effects : List (Effect ID)} {mem : Mem ID} {file : SnapFile}
    (started : d.startSnapshot st.mem snapMeta data discardLog = some (effects, mem, file)) :
    Well (d.applyAll effects) { mem, pending := some { file, discardLog } } cur := by
  obtain ⟨path, -, newer, same, -, how⟩ := startSnapshot_some started
  have index : file.index = snapMeta.lastIncludedIndex :=
    congrArg SnapshotMeta.lastIncludedIndex path
  have current : Current mem cur := same.trans (h.idle idle)
  have newer' : ∀ m, mem.snapMeta = some m → m.lastIncludedIndex < file.index := by
    rw [same, index]
    exact newer
  rcases how with ⟨rfl, -, rfl, first⟩ | ⟨rfl, rfl, rfl, first⟩
  · have sound := applyAll_whole (P := (Sound · cur)) (rotate_sound mem h.toSound)
    refine ⟨sound, current_knows current, fun none => (nomatch none), fun p hp => ?_⟩
    cases hp
    have after : d.wal.active.segment.seq + 1 =
        (d.applyAll mem.rotateLocked).wal.active.segment.seq := by
      rw [applyAll_rotateLocked]
      rfl
    exact
      { newer := newer'
        placed := fun written => nomatch written
        current := fun _ => current
        first := fun _ => first ▸ Nat.le_succ_of_le h.known
        exists_ := fun _ => (first.trans after).le
        keeps := fun _ keep => nomatch keep }
  · have min : file.snapMeta.minWalSegment = minSegment cur := by
      rw [first, current, Option.map_map]
      rfl
    refine ⟨h.toSound, h.knows, fun none => (nomatch none), fun p hp => ?_⟩
    cases hp
    exact
      { newer := newer'
        placed := fun written => nomatch written
        current := fun _ => current
        first := fun _ => min.ge
        exists_ := fun _ => min ▸ h.known
        keeps := fun _ _ => min }

theorem start_cut_sound (h : Well d st cur) {snapMeta : SnapshotMeta} {data : Bytes}
    {discardLog : Bool} {effects : List (Effect ID)} {mem : Mem ID} {file : SnapFile}
    (started : d.startSnapshot st.mem snapMeta data discardLog = some (effects, mem, file)) (k : Nat) :
    Sound (d.applyAll (effects.take k)) cur := by
  obtain ⟨-, -, -, -, -, ⟨-, -, rfl, -⟩ | ⟨-, -, rfl, -⟩⟩ := startSnapshot_some started
  · exact rotate_sound mem h.toSound k
  · rw [List.take_nil]
    exact h.toSound

theorem rename_well (h : Well d st cur) (pending : st.pending = some p)
    (unwritten : p.written = false) :
    Well (d.apply (.rename p.file)) { st with pending := some { p with written := true } }
      (some p.file) := by
  have before := h.prepared p pending
  obtain ⟨above, -⟩ := newer_above h.newest (before.current unwritten) before.newer
  refine ⟨⟨h.ordered, newest_rename above, before.exists_ unwritten⟩, fun m hm => ?_,
    fun none => (nomatch none), fun q hq => ?_⟩
  · refine ⟨(before.newer m hm).le, (h.knows m hm).segment.trans (before.first unwritten), ?_⟩
    intro f hf
    cases hf
    exact Or.inr (before.newer m hm)
  · cases hq
    exact
      { newer := before.newer
        placed := fun _ => rfl
        current := fun no => nomatch no
        first := fun no => nomatch no
        exists_ := fun no => nomatch no
        keeps := fun no => nomatch no }

theorem publish_current (h : Well d st cur) (pending : st.pending = some p)
    (written : p.written = true) :
    st.mem.publish p.file.snapMeta = { st.mem with snapMeta := some p.file.snapMeta } ∧
      Current (st.mem.publish p.file.snapMeta) cur := by
  have before := h.prepared p pending
  have published := publish_newer before.newer
  refine ⟨published, ?_⟩
  rw [before.placed written, published]
  rfl

theorem publish_well (h : Well d st cur) (pending : st.pending = some p)
    (written : p.written = true) :
    Well (d.applyAll (d.gcLocked (st.mem.publish p.file.snapMeta).snapMeta))
      { mem := st.mem.publish p.file.snapMeta } cur := by
  obtain ⟨-, current⟩ := publish_current h pending written
  have sound := applyAll_whole (P := (Sound · cur)) (gc_sound h.toSound (current_knows current))
  exact ⟨sound, current_knows current, fun _ => current, fun p hp => nomatch hp⟩

/-- A segment from which the store reads exists, and the known snapshot reads it too. -/
theorem pending_known (h : Well d st cur) {p : Pending} (pending : st.pending = some p) :
    p.file.snapMeta.minWalSegment ≤ d.wal.active.segment.seq ∧
      ∀ m, st.mem.snapMeta = some m → m.minWalSegment ≤ p.file.snapMeta.minWalSegment := by
  have prepared := h.prepared p pending
  cases written : p.written with
  | true =>
      have placed := prepared.placed written
      have known := h.known
      rw [placed] at known
      refine ⟨known, ?_⟩
      intro m hm
      have behind := (h.knows m hm).segment
      rw [placed] at behind
      exact behind
  | false =>
      refine ⟨prepared.exists_ written, ?_⟩
      intro m hm
      exact (h.knows m hm).segment.trans (prepared.first written)

end Wellformed

end EdgeKV.RaftStore
