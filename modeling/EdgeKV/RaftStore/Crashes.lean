import EdgeKV.RaftStore.System

/-!
Crash safety of the log and the snapshots. Along a run, what was promised to Raft is kept
beside the files: a `Save` counts record by record, and a snapshot counts from its rename
on. After a crash the files must give all of that back.
-/
namespace EdgeKV.RaftStore

open Wal (Segment LogSegment Journal)

variable {ID : Type}

/-- What `Load` hands to Raft. -/
def Loaded.storage (l : Loaded ID) : MemStorage ID where
  hs := l.hardState
  snapMeta := l.snapMeta.map (·.toSnapshotMeta)
  snapshot := l.snapshotData
  entries := l.entries

/-- The entries of a `Save` have the shape that Raft gives them. -/
def Action.Shaped (m : MemStorage ID) : Action ID → Prop
  | .save _ entries => RaftStore.Shaped m entries
  | _ => True

/-- The storage that Raft works with after a move. -/
def Move.storage (mv : Move ID) (m : MemStorage ID) : Option (MemStorage ID) :=
  match mv.loaded with
  | some l => some l.storage
  | none => m.performAll mv.ops

/-- A run of the store: its state, the storage it has promised, and the index of the last
`SaveSnapshot` that returned. Every step is one that `allowed` admits. -/
inductive Run (opts : Options ID)
    (allowed : System ID → MemStorage ID → Action ID → Option Nat → Prop) :
    System ID → MemStorage ID → Nat → Prop
  | fresh : Run opts allowed { disk := Disk.fresh } {} 0
  | act {s : System ID} {m m' : MemStorage ID} {n : Nat} {a : Action ID} {mv : Move ID}
      (h : Run opts allowed s m n) (ok : allowed s m a none) (shaped : a.Shaped m)
      (moves : s.act opts a = some mv) (performed : mv.storage m = some m') :
      Run opts allowed (s.next mv) m' (mv.returned.getD n)
  | crash {s : System ID} {m m' : MemStorage ID} {n : Nat} {a : Action ID} {mv : Move ID} {k : Nat}
      (h : Run opts allowed s m n) (ok : allowed s m a (some k)) (shaped : a.Shaped m)
      (moves : s.act opts a = some mv) (performed : m.performAll (mv.ops.take k) = some m') :
      Run opts allowed (s.cut mv k) m' n

/-- The call in progress that is about to discard the log. -/
def Opened.discarding (st : Opened ID) : Option Pending :=
  st.pending.filter fun p => p.discardLog && !p.written

/-- A snapshot that is about to discard the log is below the end of the log. -/
def Opened.Exposed (st : Opened ID) (m : MemStorage ID) : Prop :=
  ∃ p, st.discarding = some p ∧ p.file.index < m.snapIndex + m.entries.length

/-- The steps for which the store keeps its promise: no `Save` of entries runs into a snapshot
that is about to discard the log, no crash hits one that is below the end of the log, and for a
log that is empty `Load` does not bring back entries that a later segment starts below. -/
structure Careful (opts : Options ID) (s : System ID) (m : MemStorage ID) (a : Action ID)
    (crash : Option Nat) : Prop where
  save : ∀ hs entries, a = .save hs entries → entries ≠ [] → ∀ st, s.up = some st →
    st.discarding = none
  load : a = .load → m.entries ≠ [] ∨ Tagged m.snapIndex (s.disk.kept (minSegment s.disk.newest))
  early : crash = some 0 → ∀ st, s.up = some st → ¬ st.Exposed m
  late : ∀ k, crash = some (k + 1) → ∀ mv, s.act opts a = some mv → ¬ mv.up.Exposed m

/-- `Load` succeeds with a snapshot that is not older than the last one returned, and with
every promised entry above it in its place. -/
def Survives (d : Disk ID) (m : MemStorage ID) (n : Nat) : Prop :=
  ∃ loaded mem, d.load = .ok (loaded, mem) ∧ n ≤ loaded.storage.snapIndex ∧
    ∀ e ∈ m.entries, loaded.storage.snapIndex < e.index →
      loaded.entries[e.index - loaded.storage.snapIndex - 1]? = some e

section Invariant

variable {opts : Options ID} {d : Disk ID} {st : Opened ID} {cur : Option SnapFile}
  {live : List Entry} {m m' : MemStorage ID} {s : System ID} {mv : Move ID} {n : Nat}

/-- Before the log is discarded, the segments from the new one on hold no entries. -/
structure Window (d : Disk ID) (mem : Mem ID) (cur : Option SnapFile) (live : List Entry)
    (p : Pending) : Prop where
  last : mem.lastIndex = p.file.index
  empty : Tracks p.file.index [] (d.kept p.file.snapMeta.minWalSegment) []
  holds : live.length ≤ p.file.index - snapIndex cur → Holds d cur live

/-- An open store beside files that hold the log. -/
structure Logged (d : Disk ID) (st : Opened ID) (cur : Option SnapFile) (live : List Entry) : Prop
    extends Well d st cur where
  serves : st.discarding = none → Serves d st.mem cur live
  window : ∀ p, st.discarding = some p → Window d st.mem cur live p

/-- The files hold what was promised. -/
def Kept (s : System ID) (m : MemStorage ID) (n : Nat) : Prop :=
  ∃ cur, Shows m cur ∧ n ≤ snapIndex cur ∧
    match s.up with
    | none => Holds s.disk cur m.entries
    | some st => Logged s.disk st cur m.entries

theorem discarding_idle (idle : st.pending = none) : st.discarding = none := by
  rw [Opened.discarding, idle]
  rfl

theorem discarding_some {p : Pending} (pending : st.pending = some p) :
    st.discarding = if p.discardLog && !p.written then some p else none := by
  rw [Opened.discarding, pending, Option.filter_some]

theorem discarding_pending {p : Pending} (discarding : st.discarding = some p) :
    st.pending = some p ∧ p.written = false := by
  obtain ⟨pending, which⟩ := Option.filter_eq_some_iff.mp discarding
  exact ⟨pending, by simpa using (Bool.and_eq_true_iff.mp which).2⟩

theorem fresh_kept : Kept ({ disk := Disk.fresh } : System ID) {} 0 :=
  ⟨none, ⟨rfl, rfl⟩, Nat.zero_le _, fresh_refines.toHolds⟩

/-- What `Load` returns is what the files hold. -/
theorem load_holds (h : Holds d cur m.entries) (shown : Shows m cur)
    (clean : m.entries ≠ [] ∨ Tagged m.snapIndex (d.kept (minSegment d.newest)))
    {loaded : Loaded ID} {mem : Mem ID} (read : d.load = .ok (loaded, mem)) :
    Holds d cur loaded.entries := by
  rcases clean with some | tagged
  · obtain ⟨entries, read', agrees, -⟩ := load_tracks h.newest h.tracks
    have same := agrees.resolve_right some
    rw [read'] at read
    cases read
    exact same ▸ h
  · obtain ⟨st, replayed, eq⟩ := load_ok h.newest read
    rw [newest_eq h.newest, shown.snapIndex] at tagged
    cases eq
    exact ⟨h.toSound, tracks_tagged replayed tagged⟩

/-- After `Load` Raft works with what the files hold. -/
theorem load_logged (h : Holds d cur m.entries) (shown : Shows m cur)
    (clean : m.entries ≠ [] ∨ Tagged m.snapIndex (d.kept (minSegment d.newest)))
    {loaded : Loaded ID} {mem : Mem ID} (read : d.load = .ok (loaded, mem)) :
    Shows loaded.storage cur ∧
      Logged (d.applyAll (d.gcLocked mem.snapMeta)) { mem } cur loaded.storage.entries := by
  have well := load_well h.toSound read
  have collected := applyAll_whole (P := (Holds · cur loaded.entries))
    (gc_holds (load_holds h shown clean read) well.knows)
  obtain ⟨st, -, eq⟩ := load_ok h.newest read
  cases eq
  refine ⟨⟨Option.map_map _ _ _, rfl⟩, well, fun _ => ⟨collected, well.knows, ?_⟩, fun p hp => ?_⟩
  · exact (Nat.add_sub_cancel_left _ _).ge
  · cases hp

theorem start_logged (h : Logged d st cur live) (idle : st.pending = none)
    {snapMeta : SnapshotMeta} {data : Bytes} {discardLog : Bool} {effects : List (Effect ID)}
    {mem : Mem ID} {file : SnapFile}
    (started : d.startSnapshot st.mem snapMeta data discardLog = some (effects, mem, file)) :
    Logged (d.applyAll effects) { mem, pending := some { file, discardLog } } cur live := by
  have serves := h.serves (discarding_idle idle)
  have well := start_well h.toWell idle started
  obtain ⟨path, -, -, -, -, how⟩ := startSnapshot_some started
  have index : file.index = snapMeta.lastIncludedIndex :=
    congrArg SnapshotMeta.lastIncludedIndex path
  rcases how with ⟨rfl, last, rfl, first⟩ | ⟨rfl, rfl, rfl, -⟩
  · refine ⟨well, fun none => (nomatch none), fun p hp => ?_⟩
    cases hp
    refine ⟨last.trans index.symm, ?_, fun above => ?_⟩
    · rw [first]
      exact rotated_tracks h.ordered mem file.index
    · exact applyAll_whole (P := (Holds · cur live))
        (rotate_holds serves.toHolds (last.trans index.symm ▸ above))
  · exact ⟨well, fun _ => serves, fun p hp => (nomatch hp)⟩

/-- The rename puts the promised snapshot in place. -/
theorem rename_logged (h : Logged d st cur m.entries) (shown : Shows m cur) {p : Pending}
    (pending : st.pending = some p) (unwritten : p.written = false) :
    Shows (m.saveSnapshot p.file.path p.file.data p.discardLog) (some p.file) ∧
      Logged (d.apply (.rename p.file)) { st with pending := some { p with written := true } }
        (some p.file) (m.saveSnapshot p.file.path p.file.data p.discardLog).entries ∧
      snapIndex cur ≤ p.file.index := by
  have well := rename_well h.toWell pending unwritten
  have before := h.prepared p pending
  obtain ⟨above, raised⟩ := newer_above h.newest (before.current unwritten) before.newer
  have newer : ∀ f, cur = some f → f.index < p.file.path.lastIncludedIndex := by
    intro f hf
    refine before.newer f.snapMeta ?_
    rw [before.current unwritten, hf]
    rfl
  have which := discarding_some pending
  rw [unwritten] at which
  rw [saveSnapshot_newer shown newer]
  refine ⟨⟨rfl, rfl⟩, ⟨well, fun _ => ?_, fun q hq => ?_⟩, raised⟩
  · cases discard : p.discardLog with
    | true =>
        rw [discard] at which
        have window := h.window p which
        exact ⟨rename_discards h.ordered above (before.exists_ unwritten) window.empty, well.knows,
          Nat.zero_le _⟩
    | false =>
        rw [discard] at which
        have serves := h.serves which
        refine ⟨rename_holds serves.toHolds above raised (before.keeps unwritten discard),
          well.knows, ?_⟩
        have last := serves.last
        change (m.entries.drop (p.file.index - snapIndex cur)).length ≤ st.mem.lastIndex - p.file.index
        rw [List.length_drop]
        omega
  · have none : Opened.discarding { st with pending := some { p with written := true } } = none := by
      rw [discarding_some rfl]
      simp
    rw [none] at hq
    cases hq

theorem publish_logged (h : Logged d st cur live) {p : Pending} (pending : st.pending = some p)
    (written : p.written = true) :
    Logged (d.applyAll (d.gcLocked (st.mem.publish p.file.snapMeta).snapMeta))
      { mem := st.mem.publish p.file.snapMeta } cur live := by
  have well := publish_well h.toWell pending written
  have serves := h.serves (by rw [discarding_some pending, written]; simp)
  have collected := applyAll_whole (P := (Holds · cur live)) (gc_holds serves.toHolds well.knows)
  refine ⟨well, fun _ => ⟨collected, well.knows, ?_⟩, fun p hp => (nomatch hp)⟩
  rw [(publish_current h.toWell pending written).1]
  exact serves.last

/-- A snapshot that exposes nothing reaches to the end of the log. -/
theorem unexposed_covers {p : Pending} (safe : ¬ st.Exposed m) (which : st.discarding = some p) :
    m.snapIndex + m.entries.length ≤ p.file.index := by
  apply Nat.le_of_not_lt
  intro below
  exact safe ⟨p, which, below⟩

/-- The files hold the log, unless a new segment hides its end. -/
theorem unexposed_serves (h : Logged d st cur m.entries) (shown : Shows m cur)
    (safe : ¬ st.Exposed m) : Serves d st.mem cur m.entries := by
  cases which : st.discarding with
  | none => exact h.serves which
  | some p =>
      have window := h.window p which
      have covered := unexposed_covers safe which
      rw [shown.snapIndex] at covered
      refine ⟨window.holds (by omega), h.knows, ?_⟩
      rw [window.last]
      omega

/-- A `Save`, up to any record of it. -/
theorem save_kept (serves : Serves d st.mem cur m.entries) (shown : Shows m cur)
    {hs : Option (HardState ID)} {entries : List Entry} (shaped : Shaped m entries) (k : Nat)
    (performed : m.performAll ((EdgeKV.save hs entries).take k) = some m') :
    Shows m' cur ∧ Holds (d.applyAll ((d.save opts st.mem hs entries).take k)) cur m'.entries := by
  obtain ⟨live', followed, last, above, -⟩ := shaped_save hs shaped serves shown
  obtain ⟨mid, begun, holds⟩ := save_holds opts serves followed last k
  obtain ⟨m₁, performed₁, rfl, shown₁⟩ :=
    perform_records shown (fun e he => above e (List.mem_of_mem_take he)) begun
  rw [save_ops, ← List.map_take, performed₁] at performed
  cases performed
  exact ⟨shown₁, holds⟩

/-- A `Save` of a hard state only. -/
theorem follow_quiet (index : Nat) (live : List Entry) (hs : Option (HardState ID)) :
    (saveRecords hs []).foldlM (follow index) live = some live := by
  rw [saveRecords, List.map_nil, List.append_nil, follow_hardStates]

theorem quiet_performs (shown : Shows m cur) (hs : Option (HardState ID)) :
    ∃ m', m.performAll (EdgeKV.save hs []) = some m' ∧ m'.entries = m.entries ∧ Shows m' cur := by
  have none : ∀ e, Rec.entry e ∈ saveRecords hs [] → snapIndex cur < e.index := by
    simp [saveRecords]
  rw [save_ops]
  exact perform_records shown none (follow_quiet _ _ hs)

theorem quiet_window (h : Logged d st cur live) {p : Pending} (which : st.discarding = some p)
    (hs : Option (HardState ID)) :
    Window (d.applyAll (d.save opts st.mem hs [])) (st.mem.saved hs []) cur live p := by
  have window := h.window p which
  obtain ⟨pending, -⟩ := discarding_pending which
  obtain ⟨known, behind⟩ := pending_known h.toWell pending
  refine ⟨window.last, ?_, fun short => ?_⟩
  · refine save_tracks opts h.toSound known window.empty ?_ (follow_quiet _ _ hs) (Nat.zero_le _)
    intro m hm
    exact ⟨behind m hm, ((h.prepared p pending).newer m hm).le⟩
  · have last : live.length ≤ st.mem.lastIndex - snapIndex cur := by
      rw [window.last]
      exact short
    exact (save_serves opts ⟨window.holds short, h.knows, last⟩ (follow_quiet _ _ hs) last).toHolds

theorem save_logged (opts : Options ID) (h : Logged d st cur m.entries) (shown : Shows m cur)
    {hs : Option (HardState ID)} {entries : List Entry}
    (undisturbed : entries ≠ [] → st.discarding = none) (shaped : Shaped m entries) :
    ∃ m', m.performAll (EdgeKV.save hs entries) = some m' ∧ Shows m' cur ∧
      Logged (d.applyAll (d.save opts st.mem hs entries))
        { st with mem := st.mem.saved hs entries } cur m'.entries := by
  have well := save_well opts h.toWell hs entries
  cases which : st.discarding with
  | none =>
      have serves := h.serves which
      obtain ⟨live', followed, last, above, -⟩ := shaped_save hs shaped serves shown
      obtain ⟨m', performed, rfl, shown'⟩ := perform_records shown above followed
      rw [← save_ops] at performed
      refine ⟨m', performed, shown', well, fun _ => save_serves opts serves followed last, ?_⟩
      intro p hp
      exact absurd (which.symm.trans hp) (Option.some_ne_none p).symm
  | some p =>
      have none : entries = [] := by
        by_contra some
        rw [undisturbed some] at which
        cases which
      subst none
      obtain ⟨m', performed, same, shown'⟩ := quiet_performs shown hs
      refine ⟨m', performed, shown', well, fun none => ?_, ?_⟩
      · exact absurd (which.symm.trans none) (Option.some_ne_none p)
      · intro q hq
        obtain rfl := Option.some.inj (which.symm.trans hq)
        rw [same]
        exact quiet_window h which hs

/-- A new segment for a snapshot that discards the log does no harm if the snapshot is not
below the end of the log. -/
theorem start_cut (h : Logged d st cur m.entries) (shown : Shows m cur) (idle : st.pending = none)
    {snapMeta : SnapshotMeta} {data : Bytes} {discardLog : Bool} {effects : List (Effect ID)}
    {mem : Mem ID} {file : SnapFile}
    (started : d.startSnapshot st.mem snapMeta data discardLog = some (effects, mem, file)) {k : Nat}
    (safe : ¬ Opened.Exposed { mem, pending := some { file, discardLog } } m) :
    Holds (d.applyAll (effects.take k)) cur m.entries := by
  have serves := h.serves (discarding_idle idle)
  obtain ⟨path, -, -, -, -, how⟩ := startSnapshot_some started
  have index : file.index = snapMeta.lastIncludedIndex :=
    congrArg SnapshotMeta.lastIncludedIndex path
  rcases how with ⟨rfl, last, rfl, -⟩ | ⟨-, -, rfl, -⟩
  · refine rotate_holds serves.toHolds ?_ k
    have covered : m.snapIndex + m.entries.length ≤ file.index := unexposed_covers safe rfl
    rw [shown.snapIndex] at covered
    omega
  · rw [List.take_nil]
    exact serves.toHolds

theorem act_kept {a : Action ID} (h : Kept s m n) (ok : Careful opts s m a none)
    (shaped : a.Shaped m) (moves : s.act opts a = some mv) (performed : mv.storage m = some m') :
    Kept (s.next mv) m' (mv.returned.getD n) := by
  obtain ⟨cur, shown, returned, state⟩ := h
  cases a with
  | load =>
      obtain ⟨down, loaded, mem, read, rfl⟩ := act_load moves
      rw [down] at state
      cases performed
      obtain ⟨shown', logged⟩ := load_logged state shown (ok.load rfl) read
      exact ⟨cur, shown', returned, logged⟩
  | save hs entries =>
      obtain ⟨st, up, rfl⟩ := act_save moves
      rw [up] at state
      obtain ⟨m₁, performed₁, shown', logged⟩ :=
        save_logged opts state shown (fun some => ok.save hs entries rfl some st up) shaped
      obtain rfl := Option.some.inj (performed₁.symm.trans performed)
      exact ⟨cur, shown', returned, logged⟩
  | start snapMeta data discardLog =>
      obtain ⟨st, up, idle, ⟨stale, rfl⟩ | ⟨effects, mem, file, started, rfl⟩⟩ := act_start moves
      · rw [up] at state
        cases performed
        obtain ⟨known, eq, covered⟩ := startSnapshot_none stale
        exact ⟨cur, shown, covered.trans (state.knows known eq).index, state⟩
      · rw [up] at state
        cases performed
        exact ⟨cur, shown, returned, start_logged state idle started⟩
  | rename =>
      obtain ⟨st, p, up, pending, unwritten, rfl⟩ := act_rename moves
      rw [up] at state
      cases performed
      obtain ⟨shown', logged, raised⟩ := rename_logged state shown pending unwritten
      exact ⟨some p.file, shown', returned.trans raised, logged⟩
  | publish =>
      obtain ⟨st, p, up, pending, written, rfl⟩ := act_publish moves
      rw [up] at state
      cases performed
      refine ⟨cur, shown, ?_, publish_logged state pending written⟩
      rw [(state.prepared p pending).placed written]
      exact Nat.le_refl _

theorem crash_kept {a : Action ID} {k : Nat} (h : Kept s m n) (ok : Careful opts s m a (some k))
    (shaped : a.Shaped m) (moves : s.act opts a = some mv)
    (performed : m.performAll (mv.ops.take k) = some m') : Kept (s.cut mv k) m' n := by
  obtain ⟨cur, shown, returned, state⟩ := h
  cases a with
  | load =>
      obtain ⟨down, loaded, mem, read, rfl⟩ := act_load moves
      rw [down] at state
      have state : Holds s.disk cur m.entries := state
      rw [List.take_nil] at performed
      cases performed
      exact ⟨cur, shown, returned,
        gc_holds state (current_knows (load_current state.newest read)) k⟩
  | save hs entries =>
      obtain ⟨st, up, rfl⟩ := act_save moves
      rw [up] at state
      have safe : ¬ st.Exposed m := by
        cases k with
        | zero => exact ok.early rfl st up
        | succ k => exact ok.late k rfl _ moves
      obtain ⟨shown', holds⟩ :=
        save_kept (unexposed_serves state shown safe) shown shaped k performed
      exact ⟨cur, shown', returned, holds⟩
  | start snapMeta data discardLog =>
      obtain ⟨st, up, idle, ⟨stale, rfl⟩ | ⟨effects, mem, file, started, rfl⟩⟩ := act_start moves
      · rw [up] at state
        have state : Logged s.disk st cur m.entries := state
        rw [List.take_nil] at performed
        cases performed
        refine ⟨cur, shown, returned, ?_⟩
        rw [System.cut, List.take_nil]
        exact (state.serves (discarding_idle idle)).toHolds
      · rw [up] at state
        rw [List.take_nil] at performed
        cases performed
        refine ⟨cur, shown, returned, ?_⟩
        cases k with
        | zero => exact (state.serves (discarding_idle idle)).toHolds
        | succ k => exact start_cut state shown idle started (ok.late k rfl _ moves)
  | rename =>
      obtain ⟨st, p, up, pending, unwritten, rfl⟩ := act_rename moves
      rw [up] at state
      cases k with
      | zero =>
          cases performed
          exact ⟨cur, shown, returned,
            (unexposed_serves state shown (ok.early rfl st up)).toHolds⟩
      | succ k =>
          rw [List.take_of_length_le (by simp)] at performed
          cases performed
          obtain ⟨shown', logged, raised⟩ := rename_logged state shown pending unwritten
          refine ⟨some p.file, shown', returned.trans raised, ?_⟩
          rw [System.cut, List.take_of_length_le (by simp)]
          exact (logged.serves (by rw [discarding_some rfl]; simp)).toHolds
  | publish =>
      obtain ⟨st, p, up, pending, written, rfl⟩ := act_publish moves
      rw [up] at state
      have state : Logged s.disk st cur m.entries := state
      rw [List.take_nil] at performed
      cases performed
      have serves := state.serves (by rw [discarding_some pending, written]; simp)
      exact ⟨cur, shown, returned,
        gc_holds serves.toHolds (publish_well state.toWell pending written).knows k⟩

theorem run_kept (run : Run opts (Careful opts) s m n) : Kept s m n := by
  induction run with
  | fresh => exact fresh_kept
  | act _ ok shaped moves performed ih => exact act_kept ih ok shaped moves performed
  | crash _ ok shaped moves performed ih => exact crash_kept ih ok shaped moves performed

/-- A careful run never gets stuck on what it promised. -/
theorem run_performs {a : Action ID} (run : Run opts (Careful opts) s m n)
    (ok : Careful opts s m a none) (shaped : a.Shaped m) (moves : s.act opts a = some mv) :
    ∃ m', mv.storage m = some m' := by
  obtain ⟨cur, shown, -, state⟩ := run_kept run
  cases a with
  | load =>
      obtain ⟨-, loaded, mem, -, rfl⟩ := act_load moves
      exact ⟨_, rfl⟩
  | save hs entries =>
      obtain ⟨st, up, rfl⟩ := act_save moves
      rw [up] at state
      obtain ⟨m', performed, -⟩ :=
        save_logged opts state shown (fun some => ok.save hs entries rfl some st up) shaped
      exact ⟨m', performed⟩
  | start snapMeta data discardLog =>
      obtain ⟨st, -, -, ⟨-, rfl⟩ | ⟨effects, mem, file, -, rfl⟩⟩ := act_start moves
      · exact ⟨m, rfl⟩
      · exact ⟨m, rfl⟩
  | rename =>
      obtain ⟨st, p, -, -, -, rfl⟩ := act_rename moves
      exact ⟨_, rfl⟩
  | publish =>
      obtain ⟨st, p, -, -, -, rfl⟩ := act_publish moves
      exact ⟨m, rfl⟩

/-- While no snapshot is about to discard the log, only `Load` needs care. -/
theorem careful_idle {a : Action ID} {crash : Option Nat}
    (idle : ∀ st, s.up = some st → st.discarding = none) (other : a ≠ .load)
    (point : crash = none ∨ crash = some 0) : Careful opts s m a crash := by
  refine ⟨fun _ _ _ _ st up => idle st up, fun load => absurd load other, ?_, ?_⟩
  · intro _ st up exposed
    obtain ⟨p, discarding, -⟩ := exposed
    rw [idle st up] at discarding
    cases discarding
  · intro k inside
    rcases point with rfl | rfl
    · cases inside
    · cases inside

theorem loaded_snapIndex (st : Option (HardState ID) × List Entry) :
    (loadedWith cur st).1.storage.snapIndex = snapIndex cur := by
  rw [MemStorage.snapIndex, Loaded.storage, loadedWith, Option.map_map, Option.map_map]
  rfl

end Invariant

theorem crash_survives (opts : Options ID) (s : System ID) (m : MemStorage ID) (n : Nat)
    (run : Run opts (Careful opts) s m n) (down : s.up = none) : Survives s.disk m n := by
  obtain ⟨cur, shown, returned, state⟩ := run_kept run
  rw [down] at state
  have holds : Holds s.disk cur m.entries := state
  obtain ⟨entries, read, agrees, -⟩ := load_tracks holds.newest holds.tracks
  generalize lastHardState (s.disk.wal.records (minSegment cur)) = hs at read
  refine ⟨(loadedWith cur (hs, entries)).1, (loadedWith cur (hs, entries)).2, read,
    returned.trans (loaded_snapIndex _).ge, ?_⟩
  intro e he above
  rw [loaded_snapIndex] at above ⊢
  have same : m.entries = entries := by
    refine agrees.resolve_right ?_
    intro empty
    rw [empty] at he
    cases he
  obtain ⟨i, there⟩ := List.mem_iff_getElem?.mp he
  have number := tracks_numbered holds.tracks i e there
  have place : e.index - snapIndex cur - 1 = i := by omega
  change entries[e.index - snapIndex cur - 1]? = some e
  rw [place, ← same]
  exact there

section Samples

theorem careful_fresh (opts : Options Nat) :
    Careful opts { disk := Disk.fresh } {} .load none := by
  refine ⟨fun _ _ no => (by cases no), fun _ => Or.inr ?_, fun no => (by cases no),
    fun _ no => (by cases no)⟩
  intro before s after split st read
  cases before with
  | nil => cases read; exact Nat.zero_le _
  | cons x before =>
      have single : [⟨⟨1, 0⟩, []⟩] = x :: before ++ s :: after := split
      simp at single

/-- Three entries are saved in two segments, and a snapshot of the first two removes the first
segment. After a crash the third one is found. -/
theorem crash_survives_three :
    ∃ s m, Run smallSegments (Careful smallSegments) s m 2 ∧ s.up = none ∧
      m.snapMeta = some ⟨2, 1⟩ ∧ m.entries = [blank 3 1] ∧
      s.disk.wal.segments.map (·.segment) = [⟨2, 3⟩, ⟨3, 4⟩] ∧ Survives s.disk m 2 := by
  have opened : Run smallSegments (Careful smallSegments) _ _ _ :=
    .act .fresh (careful_fresh _) trivial rfl rfl
  have saved : Run smallSegments (Careful smallSegments) _ _ _ :=
    .act (a := .save none [blank 1 1, blank 2 1]) opened
      (careful_idle (fun st up => by cases up; rfl) (by simp) (Or.inl rfl))
      ⟨0, Nat.le_refl _, Nat.le_refl _, by simp [numbered_cons, numbered_nil, blank]⟩ rfl rfl
  have more : Run smallSegments (Careful smallSegments) _ _ _ :=
    .act (a := .save none [blank 3 1]) saved
      (careful_idle (fun st up => by cases up; rfl) (by simp) (Or.inl rfl))
      ⟨2, by decide, by decide, by simp [numbered_cons, numbered_nil, blank]⟩ rfl rfl
  have started : Run smallSegments (Careful smallSegments) _ _ _ :=
    .act (a := .start ⟨2, 1⟩ [7] false) more
      (careful_idle (fun st up => by cases up; rfl) (by simp) (Or.inl rfl)) trivial rfl rfl
  have renamed : Run smallSegments (Careful smallSegments) _ _ _ :=
    .act (a := .rename) started
      (careful_idle (fun st up => by cases up; rfl) (by simp) (Or.inl rfl)) trivial rfl rfl
  have published : Run smallSegments (Careful smallSegments) _ _ _ :=
    .act (a := .publish) renamed
      (careful_idle (fun st up => by cases up; rfl) (by simp) (Or.inl rfl)) trivial rfl rfl
  have down : Run smallSegments (Careful smallSegments) _ _ _ :=
    .crash (a := .save none []) published
      (careful_idle (fun st up => by cases up; rfl) (by simp) (Or.inr rfl))
      ⟨2, by decide, by decide, numbered_nil _⟩ rfl rfl
  exact ⟨_, _, down, rfl, rfl, rfl, rfl, crash_survives smallSegments _ _ _ down rfl⟩

/-- Three entries are saved. A snapshot of the first one that discards the log gets as far
as its new segment, whose tag is 2. After a restart, a snapshot of the first two removes the
old segment for the sake of that tag, and the third entry is gone. -/
theorem interrupted_loses :
    ∃ s m, Run oneSegment (fun _ _ _ _ => True) s m 2 ∧ s.up = none ∧ m.entries = [blank 3 1] ∧
      (s.disk.load.toOption.map fun loaded => loaded.1.entries) = some [] ∧
      ¬ Survives s.disk m 2 := by
  have opened : Run oneSegment (fun _ _ _ _ => True) _ _ _ :=
    .act (a := .load) .fresh trivial trivial rfl rfl
  have saved : Run oneSegment (fun _ _ _ _ => True) _ _ _ :=
    .act (a := .save none [blank 1 1, blank 2 1, blank 3 1]) opened trivial shaped_three rfl rfl
  have crashed : Run oneSegment (fun _ _ _ _ => True) _ _ _ :=
    .crash (a := .start ⟨1, 2⟩ [] true) (k := 1) saved trivial trivial rfl rfl
  have reopened : Run oneSegment (fun _ _ _ _ => True) _ _ _ :=
    .act (a := .load) crashed trivial trivial rfl rfl
  have started : Run oneSegment (fun _ _ _ _ => True) _ _ _ :=
    .act (a := .start ⟨2, 1⟩ [] false) reopened trivial trivial rfl rfl
  have renamed : Run oneSegment (fun _ _ _ _ => True) _ _ _ :=
    .act (a := .rename) started trivial trivial rfl rfl
  have published : Run oneSegment (fun _ _ _ _ => True) _ _ _ :=
    .act (a := .publish) renamed trivial trivial rfl rfl
  have down : Run oneSegment (fun _ _ _ _ => True) _ _ _ :=
    .crash (a := .save none []) (k := 0) published trivial ⟨2, by decide, by decide, numbered_nil _⟩
      rfl rfl
  refine ⟨_, _, down, rfl, rfl, rfl, ?_⟩
  rintro ⟨loaded, mem, read, -, all⟩
  cases read
  exact nomatch all (blank 3 1) (List.mem_singleton.mpr rfl) (by decide)

end Samples

end EdgeKV.RaftStore
