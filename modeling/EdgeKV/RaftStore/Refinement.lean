import EdgeKV.RaftStore.Durable

/-!
The store against the in-memory storage that states its contract. Both get the same calls
of the shape that Raft issues; what `Load` then returns is compared with what the in-memory
storage holds.
-/
namespace EdgeKV.RaftStore

open Wal (Segment LogSegment Journal)

variable {ID : Type} {d : Disk ID} {mem : Mem ID} {cur : Option SnapFile} {m m' : MemStorage ID}
  {live live' : List Entry}

/-- The entries of one `Save` as Raft issues it: consecutive, above the snapshot, and at
most one past the end of the log. -/
def Shaped (m : MemStorage ID) (entries : List Entry) : Prop :=
  ∃ before, m.snapIndex ≤ before ∧ before ≤ m.snapIndex + m.entries.length ∧
    Numbered before entries

/-- What a record does to the storage that Raft sees. -/
def Rec.op : Rec ID → StorageOp ID
  | .hardState hs => .hardState hs
  | .entry e => .entry e

/-- The storage has the snapshot of the file. -/
structure Shows (m : MemStorage ID) (cur : Option SnapFile) : Prop where
  snapMeta : m.snapMeta = cur.map (·.path)
  data : m.snapshot = (cur.map (·.data)).getD []

section Contract

theorem save_ops (hs : Option (HardState ID)) (entries : List Entry) :
    EdgeKV.save hs entries = (saveRecords hs entries).map Rec.op := by
  simp only [EdgeKV.save, saveRecords, List.map_append, List.map_map]
  rfl

theorem Shows.snapIndex (h : Shows m cur) : m.snapIndex = snapIndex cur := by
  rw [MemStorage.snapIndex, h.snapMeta, Option.map_map]
  rfl

theorem Shows.first (h : Shows m cur) : m.first = RaftStore.snapIndex cur + 1 := by
  rw [first_eq, h.snapIndex]

theorem perform_record (h : Shows m cur) {rec : Rec ID}
    (above : ∀ e, rec = .entry e → snapIndex cur < e.index)
    (followed : follow (snapIndex cur) m.entries rec = some live') :
    ∃ m', m.perform rec.op = some m' ∧ m'.entries = live' ∧ Shows m' cur := by
  cases rec with
  | hardState hs =>
      cases followed
      exact ⟨_, rfl, rfl, h.snapMeta, h.data⟩
  | entry e =>
      have beyond := above e rfl
      rw [follow, if_neg (by omega)] at followed
      split at followed
      · cases followed
      next room =>
        cases followed
        refine ⟨{ m with entries := m.entries.take (e.index - snapIndex cur - 1) ++ [e] }, ?_, rfl,
          h.snapMeta, h.data⟩
        rw [Rec.op, MemStorage.perform, MemStorage.appendLocked, h.first, if_neg (by omega),
          if_neg (by omega), Nat.sub_sub]

theorem perform_records (h : Shows m cur) {recs : List (Rec ID)}
    (above : ∀ e, Rec.entry e ∈ recs → snapIndex cur < e.index)
    (followed : recs.foldlM (follow (snapIndex cur)) m.entries = some live') :
    ∃ m', m.performAll (recs.map Rec.op) = some m' ∧ m'.entries = live' ∧ Shows m' cur := by
  induction recs generalizing m with
  | nil => cases followed; exact ⟨m, rfl, rfl, h⟩
  | cons rec recs ih =>
      rw [List.foldlM_cons] at followed
      obtain ⟨mid, first, rest⟩ := Option.bind_eq_some_iff.mp followed
      obtain ⟨m₁, done, rfl, shown⟩ :=
        perform_record h (fun e eq => above e (eq ▸ List.mem_cons_self)) first
      obtain ⟨m', done', entries, shown'⟩ :=
        ih shown (fun e he => above e (List.mem_cons_of_mem rec he)) rest
      refine ⟨m', ?_, entries, shown'⟩
      rw [List.map_cons, MemStorage.performAll, done]
      exact done'

/-- Consecutive entries that start inside the log or right after it can be followed. -/
theorem follow_entries (ID : Type) {index before : Nat} {entries : List Entry} (above : index ≤ before)
    (inside : before ≤ index + live.length) (numbered : Numbered before entries) :
    ∃ live', (entries.map fun e => (Rec.entry e : Rec ID)).foldlM (follow index) live =
        some live' ∧
      (entries ≠ [] → live'.length = before + entries.length - index) ∧
      (entries = [] → live' = live) := by
  induction entries generalizing live before with
  | nil => exact ⟨live, rfl, fun some => absurd rfl some, fun _ => rfl⟩
  | cons e entries ih =>
      obtain ⟨here, rest⟩ := numbered_cons.mp numbered
      have size : (live.take (e.index - index - 1) ++ [e]).length = before + 1 - index := by
        rw [List.length_append, List.length_take_of_le (by omega), List.length_singleton]
        omega
      have step : follow index live (Rec.entry e : Rec ID) =
          some (live.take (e.index - index - 1) ++ [e]) := by
        rw [follow, if_neg (by omega), if_neg (by omega)]
      generalize live.take (e.index - index - 1) ++ [e] = next at size step
      obtain ⟨live', followed, long, same⟩ := ih (show index ≤ before + 1 by omega)
        (show before + 1 ≤ index + next.length by omega) rest
      refine ⟨live', ?_, fun _ => ?_, fun empty => by cases empty⟩
      · rw [List.map_cons, List.foldlM_cons, step]
        exact followed
      · cases entries with
        | nil => rw [same rfl, size, List.length_singleton]
        | cons x more =>
            rw [long (by simp), List.length_cons, List.length_cons, List.length_cons]
            omega

theorem saved_lastIndex {before : Nat} {entries : List Entry} (numbered : Numbered before entries)
    (some : entries ≠ []) (hs : Option (HardState ID)) :
    (mem.saved hs entries).lastIndex = before + entries.length := by
  rcases List.eq_nil_or_concat entries with rfl | ⟨init, e, rfl⟩
  · exact absurd rfl some
  · have index : e.index = before + 1 + init.length := numbered init.length e (by simp)
    simp [Mem.saved, index]
    omega

/-- A `Save` of the right shape can be followed, and its records are above the snapshot. -/
theorem shaped_save (hs : Option (HardState ID)) {entries : List Entry} (shaped : Shaped m entries)
    (serves : Serves d mem cur m.entries) (shown : Shows m cur) :
    ∃ live', (saveRecords hs entries).foldlM (follow (snapIndex cur)) m.entries = some live' ∧
      live'.length ≤ (mem.saved hs entries).lastIndex - snapIndex cur ∧
      (∀ e, Rec.entry e ∈ saveRecords hs entries → snapIndex cur < e.index) ∧
      (live' = [] → entries = [] ∧ m.entries = []) := by
  obtain ⟨before, above, inside, numbered⟩ := shaped
  rw [shown.snapIndex] at above inside
  obtain ⟨live', followed, long, same⟩ := follow_entries ID above inside numbered
  refine ⟨live', ?_, ?_, fun e he => ?_, fun none => ?_⟩
  · rw [saveRecords, List.foldlM_append, follow_hardStates]
    exact followed
  · by_cases empty : entries = []
    · subst empty
      rw [same rfl]
      exact serves.last
    · rw [saved_lastIndex numbered empty hs, long empty]
  · have listed : e ∈ entries := by simpa [saveRecords] using he
    obtain ⟨i, hi⟩ := List.mem_iff_getElem?.mp listed
    have := numbered i e hi
    omega
  · cases entries with
    | nil => exact ⟨rfl, (same rfl).symm.trans none⟩
    | cons e entries =>
        have size := long (by simp)
        rw [none, List.length_nil, List.length_cons] at size
        omega

end Contract

/-- What a call does to the storage that Raft sees. -/
def Call.ops : Call ID → List (StorageOp ID)
  | .save hs entries => EdgeKV.save hs entries
  | .saveSnapshot snapMeta data discardLog => [.snapshot snapMeta data discardLog]

/-- The shape of the calls that Raft issues. A snapshot may be at any index. -/
def Call.Shaped (m : MemStorage ID) : Call ID → Prop
  | .save _ entries => RaftStore.Shaped m entries
  | .saveSnapshot _ _ _ => True

/-- The store and the in-memory storage after the same calls. -/
inductive Called (opts : Options ID) : Disk ID → Mem ID → MemStorage ID → Prop
  | fresh : Called opts Disk.fresh {} {}
  | call {d : Disk ID} {mem : Mem ID} {m m' : MemStorage ID} {c : Call ID}
      (h : Called opts d mem m) (shaped : c.Shaped m) (same : m.performAll c.ops = some m') :
      Called opts (d.applyAll (d.call opts mem c).1) (d.call opts mem c).2 m'

section Runs

variable {opts : Options ID}

/-- The store serves what the in-memory storage holds. -/
structure Refines (d : Disk ID) (mem : Mem ID) (m : MemStorage ID) (cur : Option SnapFile) : Prop
    extends Serves d mem cur m.entries where
  shown : Shows m cur
  current : Current mem cur

theorem fresh_refines : Refines (Disk.fresh : Disk ID) {} {} none := by
  have tracks : Tracks 0 [] (Disk.fresh : Disk ID).wal.segments [] :=
    ⟨Nat.zero_le _, [], [], .nil, rfl, rfl⟩
  exact
    { ordered := List.pairwise_singleton _ _
      newest := rfl
      known := Nat.zero_le _
      tracks
      knows := fun _ none => nomatch none
      last := Nat.zero_le _
      shown := ⟨rfl, rfl⟩
      current := rfl }

theorem save_refines (opts : Options ID) (hs : Option (HardState ID)) {entries : List Entry}
    (h : Refines d mem m cur) (shaped : Shaped m entries) :
    ∃ m', m.performAll (EdgeKV.save hs entries) = some m' ∧
      Refines (d.applyAll (d.save opts mem hs entries)) (mem.saved hs entries) m' cur := by
  obtain ⟨live', followed, last, above, -⟩ := shaped_save hs shaped h.toServes h.shown
  obtain ⟨m', performed, rfl, shown⟩ := perform_records h.shown above followed
  refine ⟨m', (save_ops hs entries).symm ▸ performed, ?_⟩
  exact ⟨save_serves opts h.toServes followed last, shown, h.current⟩

/-- A snapshot newer than the known one, on the side of the in-memory storage. -/
theorem saveSnapshot_newer (shown : Shows m cur) {snapMeta : SnapshotMeta}
    (newer : ∀ f, cur = some f → f.index < snapMeta.lastIncludedIndex) (data : Bytes)
    (discardLog : Bool) :
    m.saveSnapshot snapMeta data discardLog =
      { m with
        snapMeta := some snapMeta
        snapshot := data
        entries := if discardLog then []
          else m.entries.drop (snapMeta.lastIncludedIndex - snapIndex cur) } := by
  have fresh : ¬ m.snapMeta.any (snapMeta.lastIncludedIndex ≤ ·.lastIncludedIndex) := by
    rw [shown.snapMeta]
    cases cur with
    | none => simp
    | some f => simpa using show f.path.lastIncludedIndex < _ from newer f rfl
  have drop : snapMeta.lastIncludedIndex + 1 - m.first =
      snapMeta.lastIncludedIndex - snapIndex cur := by
    rw [shown.first]
    omega
  rw [MemStorage.saveSnapshot, if_neg fresh, drop]
  cases discardLog with
  | true => simp
  | false =>
      by_cases long : m.entries.length ≤ snapMeta.lastIncludedIndex - snapIndex cur
      · simp [long, List.drop_eq_nil_of_le long]
      · simp [long]

/-- The rename makes the snapshot the newest, with the log that it leaves. -/
theorem renamed_holds (h : Serves d mem cur live) (current : Current mem cur)
    {snapMeta : SnapshotMeta} {data : Bytes} {discardLog : Bool} {effects : List (Effect ID)}
    {mem' : Mem ID} {file : SnapFile}
    (started : d.startSnapshot mem snapMeta data discardLog = some (effects, mem', file)) :
    Holds ((d.applyAll effects).apply (.rename file)) (some file)
      (if discardLog then [] else live.drop (snapMeta.lastIncludedIndex - snapIndex cur)) := by
  obtain ⟨path, -, newer, -, -, how⟩ := startSnapshot_some started
  have index : file.index = snapMeta.lastIncludedIndex :=
    congrArg SnapshotMeta.lastIncludedIndex path
  obtain ⟨above, raised⟩ := newer_above h.newest current newer
  rw [← index] at above raised ⊢
  rcases how with ⟨rfl, -, rfl, first⟩ | ⟨rfl, -, rfl, same⟩
  · have empty := rotated_tracks h.ordered mem' file.index
    rw [← first] at empty
    rw [if_pos rfl]
    rw [applyAll_rotateLocked] at empty ⊢
    exact rename_discards (Wal.rotate_ordered h.ordered _ _) above first.le empty
  · rw [if_neg (by simp)]
    refine rename_holds h.toHolds above raised (same.trans ?_)
    rw [current, Option.map_map]
    rfl

theorem startSnapshot_none {snapMeta : SnapshotMeta} {data : Bytes} {discardLog : Bool}
    (stale : d.startSnapshot mem snapMeta data discardLog = none) :
    ∃ known, mem.snapMeta = some known ∧ snapMeta.lastIncludedIndex ≤ known.lastIncludedIndex := by
  rw [Disk.startSnapshot] at stale
  split at stale
  next covered => simpa [Option.any_eq_true] using covered
  · split at stale <;> cases stale

theorem snapshot_refines (h : Refines d mem m cur) (snapMeta : SnapshotMeta) (data : Bytes)
    (discardLog : Bool) :
    ∃ cur', Refines (d.applyAll (d.saveSnapshot mem snapMeta data discardLog).1)
      (d.saveSnapshot mem snapMeta data discardLog).2
      (m.saveSnapshot snapMeta data discardLog) cur' := by
  rw [Disk.saveSnapshot]
  cases started : d.startSnapshot mem snapMeta data discardLog with
  | none =>
      obtain ⟨known, eq, le⟩ := startSnapshot_none started
      rw [h.current] at eq
      obtain ⟨f, rfl, rfl⟩ := Option.map_eq_some_iff.mp eq
      have covered : m.snapMeta.any (snapMeta.lastIncludedIndex ≤ ·.lastIncludedIndex) := by
        rw [h.shown.snapMeta]
        simpa using show snapMeta.lastIncludedIndex ≤ f.path.lastIncludedIndex from le
      rw [MemStorage.saveSnapshot, if_pos covered]
      exact ⟨some f, h⟩
  | some result =>
      obtain ⟨effects, mem', file⟩ := result
      obtain ⟨path, data', newer, kept, -, how⟩ := startSnapshot_some started
      have index : file.index = snapMeta.lastIncludedIndex :=
        congrArg SnapshotMeta.lastIncludedIndex path
      have renamed := renamed_holds h.toServes h.current started
      have published : mem'.publish file.snapMeta = { mem' with snapMeta := some file.snapMeta } := by
        refine publish_newer fun known eq => ?_
        rw [kept] at eq
        exact (newer known eq).trans_eq index.symm
      have current : Current (mem'.publish file.snapMeta) (some file) := by rw [published]; rfl
      have knows := current_knows current
      have above : ∀ f, cur = some f → f.index < snapMeta.lastIncludedIndex := by
        intro f hf
        refine newer f.snapMeta ?_
        rw [h.current, hf]
        rfl
      have spec := saveSnapshot_newer h.shown above data discardLog
      refine ⟨some file, ?_⟩
      dsimp only
      rw [spec, applyAll_append, applyAll_append]
      have collected := applyAll_whole (P := (Holds · (some file) _)) (gc_holds renamed knows)
      refine ⟨⟨collected, knows, ?_⟩, ⟨congrArg some path.symm, data'.symm⟩, current⟩
      rw [published]
      change _ ≤ mem'.lastIndex - file.index
      rcases how with ⟨rfl, -⟩ | ⟨rfl, rfl, -⟩
      · exact Nat.zero_le _
      · have last := h.last
        simp only [Bool.false_eq_true, if_false, List.length_drop]
        omega

theorem called_refines (called : Called opts d mem m) : ∃ cur, Refines d mem m cur := by
  induction called with
  | fresh => exact ⟨none, fresh_refines⟩
  | call _ shaped same ih =>
      rename_i c _
      obtain ⟨cur, h⟩ := ih
      cases c with
      | save hs entries =>
          obtain ⟨m', performed, refines⟩ := save_refines opts hs h shaped
          obtain rfl := Option.some.inj (performed.symm.trans same)
          exact ⟨cur, refines⟩
      | saveSnapshot snapMeta data discardLog =>
          cases same
          exact snapshot_refines h snapMeta data discardLog

/-- A call of the right shape never leaves a gap in the in-memory storage. -/
theorem called_performs (called : Called opts d mem m) {c : Call ID} (shaped : c.Shaped m) :
    ∃ m', m.performAll c.ops = some m' := by
  obtain ⟨cur, h⟩ := called_refines called
  cases c with
  | save hs entries =>
      obtain ⟨m', performed, -⟩ := save_refines opts hs h shaped
      exact ⟨m', performed⟩
  | saveSnapshot snapMeta data discardLog => exact ⟨_, rfl⟩

/-- `Load` returns what the in-memory storage holds. -/
def LoadsAs (d : Disk ID) (m : MemStorage ID) : Prop :=
  ∃ loaded mem', d.load = .ok (loaded, mem') ∧
    loaded.snapMeta.map (·.toSnapshotMeta) = m.snapMeta ∧ loaded.snapshotData = m.snapshot ∧
    loaded.entries = m.entries

/-- An empty log is read back as such if no record is above the snapshot. -/
theorem agrees_exactly {entries : List Entry} {none : Prop} (agrees : live = entries ∨ live = [])
    (empty : entries = [] ↔ none) (clean : live ≠ [] ∨ none) : live = entries := by
  rcases agrees with same | gone
  · exact same
  · exact gone.trans (empty.mpr (clean.resolve_left (not_not.mpr gone))).symm

theorem load_refines (opts : Options ID) (d : Disk ID) (mem : Mem ID) (m : MemStorage ID)
    (called : Called opts d mem m) :
    LoadsAs d m ↔
      m.entries ≠ [] ∨
        ∀ e, Rec.entry e ∈ d.wal.records (minSegment d.newest) → e.index ≤ m.snapIndex := by
  obtain ⟨cur, h⟩ := called_refines called
  obtain ⟨entries, loaded, agrees, empty⟩ := load_tracks h.newest h.tracks
  have snapshot : (cur.map (·.snapMeta)).map (·.toSnapshotMeta) = m.snapMeta := by
    rw [h.shown.snapMeta, Option.map_map]
    rfl
  rw [newest_eq h.newest, h.shown.snapIndex]
  constructor
  · rintro ⟨loaded', mem', eq, -, -, same⟩
    rw [loaded] at eq
    cases eq
    by_cases none : m.entries = []
    · exact Or.inr (empty.mp (same.trans none))
    · exact Or.inl none
  · intro clean
    exact ⟨_, _, loaded, snapshot, h.shown.data.symm, (agrees_exactly agrees empty clean).symm⟩

end Runs

section Overwritten

/-- Options under which no segment rotates. -/
def oneSegment : Options Nat where
  size _ := 0
  segmentSize := 1

/-- Options under which every `Save` rotates. -/
def smallSegments : Options Nat where
  size _ := 1
  segmentSize := 1

/-- An entry of a term, without data. -/
def blank (index term : Nat) : Entry := ⟨index, term, .normal, []⟩

theorem shaped_three :
    Call.Shaped {} (.save none [blank 1 1, blank 2 1, blank 3 1] : Call Nat) :=
  ⟨0, Nat.le_refl _, Nat.le_refl _, by simp [numbered_cons, numbered_nil, blank]⟩

theorem load_refines_three :
    ∃ d mem m, Called oneSegment d mem m ∧ m.entries = [blank 1 1, blank 2 1, blank 3 1] ∧
      LoadsAs d m := by
  have called : Called oneSegment _ _ _ := .call .fresh shaped_three rfl
  exact ⟨_, _, _, called, rfl, (load_refines oneSegment _ _ _ called).mpr (Or.inl (by simp))⟩

/-- The second entry is replaced, which cuts off the third, and a snapshot covers the rest.
`Load` finds the third entry above the snapshot and returns it. -/
theorem overwritten_returns :
    ∃ d mem m, Called oneSegment d mem m ∧ m.entries = [] ∧
      (d.load.toOption.map fun loaded => loaded.1.entries) = some [blank 3 1] ∧ ¬ LoadsAs d m := by
  have shaped : Call.Shaped { entries := [blank 1 1, blank 2 1, blank 3 1] }
      (.save none [blank 2 2] : Call Nat) :=
    ⟨1, by decide, by decide, by simp [numbered_cons, numbered_nil, blank]⟩
  have called : Called oneSegment _ _ _ :=
    .call (c := .saveSnapshot ⟨2, 2⟩ [] false) (.call (.call .fresh shaped_three rfl) shaped rfl)
      trivial rfl
  refine ⟨_, _, _, called, rfl, rfl, ?_⟩
  rintro ⟨loaded, mem', eq, -, -, same⟩
  cases eq
  cases same

end Overwritten

end EdgeKV.RaftStore
