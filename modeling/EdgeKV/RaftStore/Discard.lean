import EdgeKV.RaftStore.HardStates

/-!
A snapshot that discards the log, on a store that has not crashed before. Whatever effects
of the call a crash lets through, `Load` returns what it would have returned before the call
or the new snapshot alone, and after the call only what is saved from then on.
-/
namespace EdgeKV.RaftStore

open Wal (Segment LogSegment Journal)

variable {ID : Type}

/-- A store that has been used with arbitrary calls, and closed and opened in between. -/
inductive Reachable (opts : Options ID) : Disk ID → Mem ID → Prop
  | fresh : Reachable opts Disk.fresh {}
  | call {d : Disk ID} {mem : Mem ID} (h : Reachable opts d mem) (c : Call ID) :
      Reachable opts (d.applyAll (d.call opts mem c).1) (d.call opts mem c).2
  | reopen {d : Disk ID} {mem mem' : Mem ID} {loaded : Loaded ID} (h : Reachable opts d mem)
      (read : d.load = .ok (loaded, mem')) :
      Reachable opts (d.applyAll (d.gcLocked mem'.snapMeta)) mem'

/-- A sequence of `Save` calls. -/
def Disk.saves (opts : Options ID) (st : Disk ID × Mem ID)
    (calls : List (Option (HardState ID) × List Entry)) : Disk ID × Mem ID :=
  calls.foldl
    (fun st c => (st.1.applyAll (st.1.save opts st.2 c.1 c.2), st.2.saved c.1 c.2)) st

/-- The same calls on the in-memory storage, all of the shape that Raft gives them. -/
def ShapedAll : MemStorage ID → List (Option (HardState ID) × List Entry) → MemStorage ID → Prop
  | m, [], m' => m = m'
  | m, c :: calls, m' =>
      Shaped m c.2 ∧ ∃ mid, m.performAll (EdgeKV.save c.1 c.2) = some mid ∧ ShapedAll mid calls m'

section Restating

variable {d d' : Disk ID} {minSeq : Nat} {mem : Mem ID} {segs segs' : List (LogSegment (Rec ID))}

/-- Every segment after one with a hard state has one in it or after it. -/
def Headed (segs : List (LogSegment (Rec ID))) : Prop := ∀ index, Restated index segs

theorem headed_single (s : LogSegment (Rec ID)) : Headed [s] := by
  intro index before x after split _ stated
  cases before with
  | nil => exact absurd rfl stated
  | cons y before => simp at split

theorem headed_suffix (h : Headed (segs ++ segs')) : Headed segs' := by
  intro index before s after split tag stated
  refine h index (segs ++ before) s after (by rw [split, List.append_assoc]) tag ?_
  rw [List.flatMap_append, lastHardState_append]
  intro none
  exact stated (Option.or_eq_none_iff.mp none).1

/-- More records in the last segment. -/
theorem headed_append {s : LogSegment (Rec ID)} (h : Headed (segs ++ [s])) (recs : List (Rec ID)) :
    Headed (segs ++ [{ s with records := s.records ++ recs }]) := by
  intro index before x after split tag stated
  rcases List.eq_nil_or_concat after with rfl | ⟨init, last, rfl⟩
  · obtain ⟨rfl, eq⟩ := List.append_inj' split rfl
    obtain rfl := (List.cons.inj eq).1
    have old := h index segs s [] rfl tag stated
    rw [List.flatMap_singleton] at old ⊢
    rw [lastHardState_append]
    intro none
    exact old (Option.or_eq_none_iff.mp none).2
  · rw [List.concat_eq_append, ← List.cons_append, ← List.append_assoc] at split
    obtain ⟨rfl, eq⟩ := List.append_inj' split rfl
    obtain rfl := (List.cons.inj eq).1
    have old := h index before x (init ++ [s]) (by simp) tag stated
    rw [List.concat_eq_append, ← List.cons_append, List.flatMap_append, List.flatMap_singleton,
      lastHardState_append, lastHardState_append]
    rw [← List.cons_append, List.flatMap_append, List.flatMap_singleton, lastHardState_append] at old
    intro none
    obtain ⟨inner, first⟩ := Option.or_eq_none_iff.mp none
    exact old (Option.or_eq_none_iff.mpr ⟨(Option.or_eq_none_iff.mp inner).2, first⟩)

theorem collected_headed {m : StoredMeta} (h : Collected m d d') (ordered : d.wal.Ordered)
    (le : m.minWalSegment ≤ minSeq) (headed : Headed (d.kept minSeq)) : Headed (d'.kept minSeq) := by
  rcases h.kept_cases ordered le with same | ⟨before, s, after, kept, left, -⟩
  · rw [same]
    exact headed
  · rw [kept] at headed
    rw [left]
    exact headed_suffix headed

theorem gc_headed {snapMeta : Option StoredMeta} (ordered : d.wal.Ordered)
    (headed : Headed (d.kept minSeq)) (le : ∀ m, snapMeta = some m → m.minWalSegment ≤ minSeq) :
    Headed ((d.applyAll (d.gcLocked snapMeta)).kept minSeq) := by
  cases snapMeta with
  | none => exact headed
  | some m =>
      have collected := applyAll_whole (P := Collected m d) (gcLocked_collected ordered m)
      exact collected_headed collected ordered (le m rfl) headed

theorem appendAll_headed (known : minSeq ≤ d.wal.active.segment.seq) (headed : Headed (d.kept minSeq))
    (recs : List (Rec ID)) : Headed ((d.applyAll (recs.map .append)).kept minSeq) := by
  rw [kept_split known] at headed
  rw [applyAll_append_records, kept_split (d := { d with wal := d.wal.append recs }) known]
  exact headed_append headed recs

theorem save_headed (opts : Options ID) {cur : Option SnapFile} (sound : Sound d cur)
    (known : minSeq ≤ d.wal.active.segment.seq) (states : States d minSeq mem.hs)
    (headed : Headed (d.kept minSeq)) (le : ∀ m, mem.snapMeta = some m → m.minWalSegment ≤ minSeq)
    (hs : Option (HardState ID)) (entries : List Entry) :
    Headed ((d.applyAll (d.save opts mem hs entries)).kept minSeq) := by
  have appended := appendAll_states known states (saveRecords hs entries)
  rw [lastHardState_saveRecords, ← saved_hs hs entries] at appended
  have known' := known.trans (active_le d ((saveRecords hs entries).map .append))
  rw [Disk.save, applyAll_append, Disk.rotateFull]
  split
  · rw [applyAll_append]
    refine gc_headed ?_ (rotated_restated known' appended) le
    rw [applyAll_rotateLocked]
    exact Wal.rotate_ordered (appendAll_sound sound _).ordered _ _
  · exact appendAll_headed known headed _

end Restating

section Reaching

variable {opts : Options ID} {d : Disk ID} {mem : Mem ID} {cur : Option SnapFile}

/-- A store between two calls that has never been cut off. -/
structure Settled (d : Disk ID) (mem : Mem ID) (cur : Option SnapFile) : Prop
    extends Stated d { mem } cur mem.hs where
  headed : Headed (d.kept (minSegment cur))

theorem Settled.current (h : Settled d mem cur) : Current mem cur := h.idle rfl

theorem Settled.segment (h : Settled d mem cur) :
    ∀ m, mem.snapMeta = some m → m.minWalSegment ≤ minSegment cur :=
  fun m hm => (h.knows m hm).segment

theorem save_settled (h : Settled d mem cur) (hs : Option (HardState ID)) (entries : List Entry) :
    Settled (d.applyAll (d.save opts mem hs entries)) (mem.saved hs entries) cur := by
  have stated := save_stated opts h.toStated hs entries
  have same : (mem.saved hs entries).hs = _ := stated.mem
  rw [← same] at stated
  exact ⟨stated, save_headed opts h.toSound h.known h.files h.headed h.segment hs entries⟩

theorem reopen_settled (h : Settled d mem cur) {loaded : Loaded ID} {mem' : Mem ID}
    (read : d.load = .ok (loaded, mem')) :
    Settled (d.applyAll (d.gcLocked mem'.snapMeta)) mem' cur := by
  have restated : ∀ f, cur = some f → Restated f.index (d.kept f.snapMeta.minWalSegment) := by
    intro f hf
    subst hf
    exact h.headed f.index
  have stated := load_stated h.toSound h.files read restated
  have same : mem'.hs = mem.hs := stated.mem
  rw [← same] at stated
  refine ⟨stated, gc_headed h.ordered h.headed ?_⟩
  intro m hm
  exact (current_knows (load_current h.newest read) m hm).segment

/-- After the rename the segments that are read restate the hard state. -/
theorem renamed_headed (h : Settled d mem cur) {snapMeta : SnapshotMeta} {data : Bytes}
    {discardLog : Bool} {effects : List (Effect ID)} {mem' : Mem ID} {file : SnapFile}
    (started : d.startSnapshot mem snapMeta data discardLog = some (effects, mem', file)) :
    Headed ((d.applyAll effects).kept file.snapMeta.minWalSegment) := by
  obtain ⟨-, -, -, -, -, how⟩ := startSnapshot_some started
  rcases how with ⟨-, -, rfl, first⟩ | ⟨-, -, rfl, first⟩
  · rw [first, kept_rotated h.ordered]
    exact headed_single _
  · have same : file.snapMeta.minWalSegment = minSegment cur := by
      rw [first, h.current, Option.map_map]
      rfl
    rw [same]
    exact h.headed

theorem started_settled (h : Settled d mem cur) {snapMeta : SnapshotMeta} {data : Bytes}
    {discardLog : Bool} {effects : List (Effect ID)} {mem' : Mem ID} {file : SnapFile}
    (started : d.startSnapshot mem snapMeta data discardLog = some (effects, mem', file)) :
    Settled (d.applyAll (d.saveSnapshot mem snapMeta data discardLog).1)
      (d.saveSnapshot mem snapMeta data discardLog).2 (some file) := by
  have begun := (start_stated h.toStated rfl started).2
  have renamed := rename_stated begun rfl rfl
  have headed := renamed_headed h started
  have restated : ∀ f, some file = some f →
      Restated f.index (((d.applyAll effects).apply (.rename file)).kept f.snapMeta.minWalSegment) := by
    intro f hf
    cases hf
    exact headed file.index
  have published := publish_stated renamed rfl rfl restated
  have same : (mem'.publish file.snapMeta).hs = mem.hs := published.mem
  rw [Disk.saveSnapshot, started]
  dsimp only
  rw [applyAll_append, applyAll_append]
  refine ⟨same ▸ published, gc_headed renamed.ordered headed ?_⟩
  intro m hm
  exact (published.knows m hm).segment

theorem snapshot_settled (h : Settled d mem cur) (snapMeta : SnapshotMeta) (data : Bytes)
    (discardLog : Bool) :
    ∃ cur', Settled (d.applyAll (d.saveSnapshot mem snapMeta data discardLog).1)
      (d.saveSnapshot mem snapMeta data discardLog).2 cur' := by
  cases started : d.startSnapshot mem snapMeta data discardLog with
  | none =>
      rw [Disk.saveSnapshot, started]
      exact ⟨cur, h⟩
  | some result => exact ⟨some result.2.2, started_settled h started⟩

theorem reachable_settled (h : Reachable opts d mem) : ∃ cur, Settled d mem cur := by
  induction h with
  | fresh =>
      refine ⟨none, ⟨?_, rfl, rfl, fun p hp => (nomatch hp)⟩, headed_single _⟩
      exact ⟨fresh_refines.toSound, fun m hm => (nomatch hm), fun _ => rfl, fun p hp => (nomatch hp)⟩
  | call _ c ih =>
      obtain ⟨cur, settled⟩ := ih
      cases c with
      | save hs entries => exact ⟨cur, save_settled settled hs entries⟩
      | saveSnapshot snapMeta data discardLog =>
          exact snapshot_settled settled snapMeta data discardLog
  | reopen _ read ih =>
      obtain ⟨cur, settled⟩ := ih
      exact ⟨cur, reopen_settled settled read⟩

end Reaching

section Atomic

variable {opts : Options ID} {d : Disk ID} {mem : Mem ID} {cur : Option SnapFile}

theorem replay_heads (index : Nat) (st : Option (HardState ID) × List Entry) (k : Nat) :
    ((st.1.toList.take k).map Rec.hardState).foldlM (replay index) st = .ok st := by
  obtain ⟨hs, entries⟩ := st
  cases hs with
  | none => simp; rfl
  | some hs =>
      cases k with
      | zero => rfl
      | succ k =>
          have all : [hs].take (k + 1) = [hs] := List.take_of_length_le (by simp)
          rw [show (some hs, entries).1.toList = [hs] from rfl, all]
          rfl

/-- `Load` does not notice a rotation, whole or cut off. -/
theorem load_rotated (sound : Sound d cur) (states : States d (minSegment cur) mem.hs) (k : Nat) :
    (d.applyAll (mem.rotateLocked.take k)).load = d.load := by
  have rotated := rotate_sound mem sound k
  rw [load_eq rotated.newest, load_eq sound.newest]
  cases k with
  | zero => rfl
  | succ k =>
      have known := Nat.le_succ_of_le sound.known
      rw [rotateLocked_take, applyAll_cons, records_appendAll known, records_create known,
        List.foldlM_append]
      cases replayed : (d.wal.records (minSegment cur)).foldlM (replay (snapIndex cur)) (none, []) with
      | error err => rfl
      | ok st =>
          have hs : st.1 = mem.hs := by
            rw [(replay_result replayed).1, Option.or_none]
            exact states
          rw [← hs]
          exact congrArg (Except.map (loadedWith cur)) (replay_heads (snapIndex cur) st k)

theorem records_single {minSeq : Nat} {s : LogSegment (Rec ID)} (only : d.kept minSeq = [s]) :
    d.wal.records minSeq = s.records := by
  have all := congrArg (List.flatMap LogSegment.records) only
  rw [List.flatMap_singleton] at all
  exact all

/-- `Load` with a snapshot whose segments hold only the hard state. -/
theorem load_discarded {file : SnapFile} (newest : Newest d.snaps (some file)) {seg : Segment}
    (kept : d.kept file.snapMeta.minWalSegment = [⟨seg, mem.hs.toList.map .hardState⟩]) :
    d.load = .ok (loadedWith (some file) (mem.hs, [])) := by
  have records : d.wal.records (minSegment (some file)) = mem.hs.toList.map .hardState :=
    records_single kept
  rw [load_eq newest, records]
  cases mem.hs with
  | none => rfl
  | some hs => rfl

/-- Collecting leaves a single segment that is read. -/
theorem collected_single {d' : Disk ID} {m : StoredMeta} {minSeq : Nat} (h : Collected m d d')
    (ordered : d.wal.Ordered) (le : m.minWalSegment ≤ minSeq) {s : LogSegment (Rec ID)}
    (only : d.kept minSeq = [s]) : d'.kept minSeq = [s] := by
  rcases h.kept_cases ordered le with same | ⟨before, x, after, kept, left, -⟩
  · exact same.trans only
  · rw [only] at kept
    rw [left]
    cases before with
    | nil => exact kept.symm
    | cons y before => simp at kept

/-- What `SaveSnapshot` leaves of a store at any point of a call that discards the log. -/
theorem discard_cut (h : Settled d mem cur) {snapMeta : SnapshotMeta} {data : Bytes}
    {effects : List (Effect ID)} {mem' : Mem ID} {file : SnapFile}
    (started : d.startSnapshot mem snapMeta data true = some (effects, mem', file)) (k : Nat) :
    (d.applyAll ((d.saveSnapshot mem snapMeta data true).1.take k)).load = d.load ∨
      (d.applyAll ((d.saveSnapshot mem snapMeta data true).1.take k)).load =
        .ok (loadedWith (some file) (mem.hs, [])) := by
  have begun := (start_stated h.toStated rfl started).2
  have renamed := rename_stated begun rfl rfl
  obtain ⟨published, current⟩ := publish_current renamed.toWell rfl rfl
  obtain ⟨-, -, -, -, same, how⟩ := startSnapshot_some started
  obtain ⟨-, -, rfl, first⟩ := how.resolve_right (fun ⟨no, _⟩ => nomatch no)
  have states : States d (minSegment cur) mem'.hs := same ▸ h.files
  have only := kept_rotated h.ordered mem'
  rw [← first] at only
  rw [Disk.saveSnapshot, started]
  refine applyAll_cut (P := fun x => x.load = d.load ∨
    x.load = .ok (loadedWith (some file) (mem.hs, []))) ?_ ?_ k
  · refine applyAll_cut (P := fun x => x.load = d.load ∨
      x.load = .ok (loadedWith (some file) (mem.hs, []))) ?_ ?_
    · intro n
      exact Or.inl (load_rotated h.toSound states n)
    · intro n
      cases n with
      | zero =>
          have whole := applyAll_whole (P := fun x => x.load = d.load) (load_rotated h.toSound states)
          exact Or.inl whole
      | succ n =>
          rw [List.take_of_length_le (by simp), ← same]
          exact Or.inr (load_discarded renamed.newest only)
  · intro n
    rw [applyAll_append, published, ← same]
    have collected := gcLocked_collected renamed.ordered file.snapMeta n
    have behind := current_knows current file.snapMeta (by rw [published])
    exact Or.inr (load_discarded (collected.sound behind renamed.toSound).newest
      (collected_single collected renamed.ordered (Nat.le_refl _) only))

/-- Every entry that `Load` returns is in a record above the snapshot. -/
theorem replay_entries {index : Nat} {recs : List (Rec ID)}
    {st st' : Option (HardState ID) × List Entry}
    (h : recs.foldlM (replay index) st = .ok st') :
    ∀ e ∈ st'.2, e ∈ st.2 ∨ (Rec.entry e ∈ recs ∧ index < e.index) := by
  induction recs generalizing st with
  | nil =>
      cases h
      intro e he
      exact Or.inl he
  | cons rec recs ih =>
      rw [List.foldlM_cons] at h
      cases first : replay index st rec with
      | error err => rw [first] at h; cases h
      | ok mid =>
          rw [first] at h
          intro e he
          rcases ih h e he with old | ⟨there, above⟩
          · cases rec with
            | hardState hs =>
                cases first
                exact Or.inl old
            | entry x =>
                rw [replay] at first
                split at first
                · cases first
                  exact Or.inl old
                next above =>
                  split at first
                  · cases first
                  · cases first
                    rcases List.mem_append.mp old with older | new
                    · exact Or.inl (List.mem_of_mem_take older)
                    · rw [List.mem_singleton.mp new]
                      exact Or.inr ⟨List.mem_cons_self, by omega⟩
          · exact Or.inr ⟨List.mem_cons_of_mem rec there, above⟩

theorem gc_records {snapMeta : Option StoredMeta} {minSeq : Nat} (ordered : d.wal.Ordered)
    (le : ∀ m, snapMeta = some m → m.minWalSegment ≤ minSeq) :
    (d.applyAll (d.gcLocked snapMeta)).wal.records minSeq ⊆ d.wal.records minSeq := by
  cases snapMeta with
  | none => exact fun _ h => h
  | some m =>
      have collected := applyAll_whole (P := Collected m d) (gcLocked_collected ordered m)
      change ((d.applyAll (d.gcLocked (some m))).kept minSeq).flatMap (·.records) ⊆
        (d.kept minSeq).flatMap (·.records)
      rcases collected.kept_cases ordered (le m rfl) with same | ⟨before, s, after, kept, left, -⟩
      · rw [same]
        exact fun _ h => h
      · rw [kept, left, List.flatMap_append]
        exact List.subset_append_right _ _

/-- A `Save` adds its own entries to those that are read, and no others. -/
theorem save_entries (opts : Options ID) (sound : Sound d cur) (knows : Knows mem cur)
    {hs : Option (HardState ID)} {entries : List Entry} {e : Entry}
    (there : Rec.entry e ∈ (d.applyAll (d.save opts mem hs entries)).wal.records (minSegment cur)) :
    Rec.entry e ∈ d.wal.records (minSegment cur) ∨ e ∈ entries := by
  have appended := appendAll_sound sound (saveRecords hs entries)
  have first : Rec.entry e ∈ (d.applyAll ((saveRecords hs entries).map .append)).wal.records
      (minSegment cur) := by
    rw [Disk.save, applyAll_append, Disk.rotateFull] at there
    split at there
    · rw [applyAll_append] at there
      have rotated := applyAll_whole (P := (Sound · cur)) (rotate_sound (mem.saved hs entries) appended)
      have before := gc_records rotated.ordered
        (fun m hm => ((knows.saved hs entries) m hm).segment) there
      rw [records_rotated (Nat.le_succ_of_le appended.known)] at before
      rcases List.mem_append.mp before with old | head
      · exact old
      · obtain ⟨state, -, no⟩ := List.mem_map.mp head
        cases no
    · exact there
  rw [records_appendAll sound.known] at first
  rcases List.mem_append.mp first with old | new
  · exact Or.inl old
  · exact Or.inr (by simpa [saveRecords] using new)

theorem saves_cons (opts : Options ID) (c : Option (HardState ID) × List Entry)
    (calls : List (Option (HardState ID) × List Entry)) :
    Disk.saves opts (d, mem) (c :: calls) =
      Disk.saves opts (d.applyAll (d.save opts mem c.1 c.2), mem.saved c.1 c.2) calls := rfl

theorem saves_settled (opts : Options ID) (h : Settled d mem cur)
    (calls : List (Option (HardState ID) × List Entry)) :
    Settled (Disk.saves opts (d, mem) calls).1 (Disk.saves opts (d, mem) calls).2 cur := by
  induction calls generalizing d mem with
  | nil => exact h
  | cons c calls ih =>
      rw [saves_cons]
      exact ih (save_settled h c.1 c.2)

theorem saves_entries (opts : Options ID) (h : Settled d mem cur)
    (calls : List (Option (HardState ID) × List Entry)) {e : Entry}
    (there : Rec.entry e ∈ (Disk.saves opts (d, mem) calls).1.wal.records (minSegment cur)) :
    Rec.entry e ∈ d.wal.records (minSegment cur) ∨ ∃ c ∈ calls, e ∈ c.2 := by
  induction calls generalizing d mem with
  | nil => exact Or.inl there
  | cons c calls ih =>
      rw [saves_cons] at there
      rcases ih (save_settled h c.1 c.2) there with before | ⟨later, listed, new⟩
      · rcases save_entries opts h.toSound h.knows before with old | new
        · exact Or.inl old
        · exact Or.inr ⟨c, List.mem_cons_self, new⟩
      · exact Or.inr ⟨later, List.mem_cons_of_mem c listed, new⟩

/-- After the call only the new segment is read, and it holds only the hard state. -/
theorem discarded_kept (h : Settled d mem cur) {snapMeta : SnapshotMeta} {data : Bytes}
    {effects : List (Effect ID)} {mem' : Mem ID} {file : SnapFile}
    (started : d.startSnapshot mem snapMeta data true = some (effects, mem', file)) :
    ∃ seg, (d.applyAll (d.saveSnapshot mem snapMeta data true).1).kept (minSegment (some file)) =
      [⟨seg, mem.hs.toList.map .hardState⟩] := by
  have begun := (start_stated h.toStated rfl started).2
  have renamed := rename_stated begun rfl rfl
  obtain ⟨published, -⟩ := publish_current renamed.toWell rfl rfl
  obtain ⟨-, -, -, -, same, how⟩ := startSnapshot_some started
  obtain ⟨-, -, rfl, first⟩ := how.resolve_right (fun ⟨no, _⟩ => nomatch no)
  have only := kept_rotated h.ordered mem'
  rw [← first] at only
  have collected := applyAll_whole (P := Collected file.snapMeta _)
    (gcLocked_collected renamed.ordered file.snapMeta)
  rw [Disk.saveSnapshot, started, ← same]
  dsimp only
  rw [applyAll_append, applyAll_append, published]
  exact ⟨_, collected_single collected renamed.ordered (Nat.le_refl _) only⟩

theorem discarded_entries (h : Settled d mem cur) {snapMeta : SnapshotMeta} {data : Bytes}
    {effects : List (Effect ID)} {mem' : Mem ID} {file : SnapFile}
    (started : d.startSnapshot mem snapMeta data true = some (effects, mem', file)) (e : Entry) :
    Rec.entry e ∉ (d.applyAll (d.saveSnapshot mem snapMeta data true).1).wal.records
      (minSegment (some file)) := by
  obtain ⟨seg, only⟩ := discarded_kept h started
  rw [records_single only]
  intro head
  obtain ⟨hs, -, no⟩ := List.mem_map.mp head
  cases no

/-- After the call the store serves the snapshot and an empty log, whatever was in it. -/
theorem discarded_refines (h : Settled d mem cur) {snapMeta : SnapshotMeta} {data : Bytes}
    {effects : List (Effect ID)} {mem' : Mem ID} {file : SnapFile}
    (started : d.startSnapshot mem snapMeta data true = some (effects, mem', file)) :
    Refines (d.applyAll (d.saveSnapshot mem snapMeta data true).1)
      (d.saveSnapshot mem snapMeta data true).2
      { hs := mem.hs, snapMeta := some snapMeta, snapshot := data } (some file) := by
  have settled := started_settled h started
  obtain ⟨path, content, -, -, -, -⟩ := startSnapshot_some started
  refine ⟨⟨⟨settled.toSound, ?_⟩, settled.knows, Nat.zero_le _⟩,
    ⟨congrArg some path.symm, content.symm⟩, settled.current⟩
  obtain ⟨seg, only⟩ := discarded_kept h started
  rw [only]
  exact ⟨Nat.zero_le _, _, [], .refl _, follow_hardStates _ _ _, rfl⟩

/-- A log that is empty has no records above the snapshot. -/
def Clean (d : Disk ID) (cur : Option SnapFile) (m : MemStorage ID) : Prop :=
  m.entries ≠ [] ∨ ∀ e, Rec.entry e ∈ d.wal.records (minSegment cur) → e.index ≤ snapIndex cur

theorem save_clean (opts : Options ID) {m m' : MemStorage ID} (h : Refines d mem m cur)
    (clean : Clean d cur m) {hs : Option (HardState ID)} {entries : List Entry}
    (shaped : Shaped m entries) (performed : m.performAll (EdgeKV.save hs entries) = some m') :
    Clean (d.applyAll (d.save opts mem hs entries)) cur m' := by
  obtain ⟨live, followed, -, above, empty⟩ := shaped_save hs shaped h.toServes h.shown
  obtain ⟨m₁, done, rfl, -⟩ := perform_records h.shown above followed
  rw [save_ops, done] at performed
  obtain rfl := Option.some.inj performed
  by_cases none : m₁.entries = []
  · obtain ⟨rfl, before⟩ := empty none
    refine Or.inr fun e there => ?_
    rcases save_entries opts h.toSound h.knows there with old | new
    · exact clean.resolve_left (not_not.mpr before) e old
    · cases new
  · exact Or.inl none

/-- After `Save` calls of the right shape `Load` returns what the in-memory storage holds. -/
theorem saves_loads (opts : Options ID) {m m' : MemStorage ID} (h : Refines d mem m cur)
    (clean : Clean d cur m) {calls : List (Option (HardState ID) × List Entry)}
    (shaped : ShapedAll m calls m') : LoadsAs (Disk.saves opts (d, mem) calls).1 m' := by
  induction calls generalizing d mem m with
  | nil =>
      obtain rfl : m = m' := shaped
      obtain ⟨entries, loaded, agrees, empty⟩ := load_tracks h.newest h.tracks
      refine ⟨_, _, loaded, ?_, h.shown.data.symm, (agrees_exactly agrees empty clean).symm⟩
      rw [h.shown.snapMeta]
      exact Option.map_map ..
  | cons c calls ih =>
      obtain ⟨first, mid, performed, rest⟩ := shaped
      obtain ⟨m₁, performed₁, refines⟩ := save_refines opts c.1 h first
      obtain rfl := Option.some.inj (performed.symm.trans performed₁)
      rw [saves_cons]
      exact ih refines (save_clean opts h clean first performed) rest

/-- The entries that are read after the call come from `Save` calls that follow it. -/
theorem discarded_loads (opts : Options ID) (h : Settled d mem cur) {snapMeta : SnapshotMeta}
    {data : Bytes} {effects : List (Effect ID)} {mem' : Mem ID} {file : SnapFile}
    (started : d.startSnapshot mem snapMeta data true = some (effects, mem', file))
    (calls : List (Option (HardState ID) × List Entry)) {loaded : Loaded ID} {after : Mem ID}
    (read : (Disk.saves opts (d.applyAll (d.saveSnapshot mem snapMeta data true).1,
      (d.saveSnapshot mem snapMeta data true).2) calls).1.load = .ok (loaded, after)) :
    ∀ e ∈ loaded.entries, snapMeta.lastIncludedIndex < e.index ∧ ∃ c ∈ calls, e ∈ c.2 := by
  have settled := started_settled h started
  obtain ⟨st, replayed, result⟩ := load_ok (saves_settled opts settled calls).newest read
  obtain ⟨path, -, -, -, -, -⟩ := startSnapshot_some started
  cases result
  intro e he
  rcases replay_entries replayed e he with no | ⟨there, above⟩
  · cases no
  · refine ⟨(congrArg SnapshotMeta.lastIncludedIndex path).symm.trans_lt above, ?_⟩
    exact (saves_entries opts settled calls there).resolve_left (discarded_entries h started e)

end Atomic

/-- A snapshot that discards the log takes effect as a whole. At any point of the call
`Load` returns what it returned before or the snapshot alone, with the same hard state, and
after it only what later `Save` calls wrote above the snapshot. -/
def DiscardsAtomically (opts : Options ID) (d : Disk ID) (mem : Mem ID) (snapMeta : SnapshotMeta)
    (data : Bytes) : Prop :=
  (∀ loaded mem', d.load = .ok (loaded, mem') → loaded.hardState = mem.hs) ∧
  (∀ k, (d.applyAll ((d.saveSnapshot mem snapMeta data true).1.take k)).load = d.load ∨
    ∃ minWalSegment,
      (d.applyAll ((d.saveSnapshot mem snapMeta data true).1.take k)).load.map Prod.fst =
        .ok
          { hardState := mem.hs
            snapMeta := some { snapMeta with minWalSegment }
            snapshotData := data
            entries := [] }) ∧
  ∀ calls,
    let after := Disk.saves opts (d.applyAll (d.saveSnapshot mem snapMeta data true).1,
      (d.saveSnapshot mem snapMeta data true).2) calls
    (∀ loaded mem', after.1.load = .ok (loaded, mem') → ∀ e ∈ loaded.entries,
      snapMeta.lastIncludedIndex < e.index ∧ ∃ c ∈ calls, e ∈ c.2) ∧
    ∀ m, ShapedAll { hs := mem.hs, snapMeta := some snapMeta, snapshot := data } calls m →
      LoadsAs after.1 m

theorem discard_atomic (opts : Options ID) (d : Disk ID) (mem : Mem ID)
    (reached : Reachable opts d mem) (snapMeta : SnapshotMeta) (data : Bytes)
    (above : ∀ m, mem.snapMeta = some m → m.lastIncludedIndex < snapMeta.lastIncludedIndex) :
    DiscardsAtomically opts d mem snapMeta data := by
  obtain ⟨cur, settled⟩ := reachable_settled reached
  cases started : d.startSnapshot mem snapMeta data true with
  | none =>
      obtain ⟨known, eq, le⟩ := startSnapshot_none started
      exact absurd (above known eq) (Nat.not_lt.mpr le)
  | some result =>
      obtain ⟨effects, mem', file⟩ := result
      obtain ⟨path, content, -, -, -, -⟩ := startSnapshot_some started
      refine ⟨fun loaded mem' read => (load_states settled.toSound settled.files read).1, ?_, ?_⟩
      · intro k
        refine (discard_cut settled started k).imp_right fun cut => ?_
        refine ⟨file.snapMeta.minWalSegment, ?_⟩
        rw [cut, ← content, ← path]
        rfl
      · intro calls
        refine ⟨fun loaded after read => discarded_loads opts settled started calls read, ?_⟩
        intro m shaped
        refine saves_loads opts (discarded_refines settled started) (Or.inr ?_) shaped
        intro e there
        exact absurd there (discarded_entries settled started e)

theorem discard_atomic_three :
    ∃ d mem, Reachable oneSegment d mem ∧
      (d.load.toOption.map fun loaded => loaded.1.entries.length) = some 3 ∧
      DiscardsAtomically oneSegment d mem ⟨5, 2⟩ [7] := by
  have reached : Reachable oneSegment _ _ :=
    .call .fresh (.save (some ⟨1, some 0⟩) [blank 1 1, blank 2 1, blank 3 1])
  exact ⟨_, _, reached, rfl, discard_atomic oneSegment _ _ reached ⟨5, 2⟩ [7] (fun _ no => nomatch no)⟩

end EdgeKV.RaftStore
