import EdgeKV.RaftStore.Tracking

/-!
What the files of the store hold: the newest snapshot and, in the segments that it leaves
valid, the log above it. Every effect of a call keeps this, so it holds wherever a crash
falls.
-/
namespace EdgeKV.RaftStore

open Wal (Segment LogSegment Journal)

variable {ID : Type} {d d' : Disk ID} {cur : Option SnapFile} {live live' : List Entry}
  {index minSeq : Nat}

/-- The files are in order, and `cur` is the newest snapshot. -/
structure Sound (d : Disk ID) (cur : Option SnapFile) : Prop where
  ordered : d.wal.Ordered
  newest : Newest d.snaps cur
  known : minSegment cur ≤ d.wal.active.segment.seq

/-- The snapshot and the log that the files hold. -/
structure Holds (d : Disk ID) (cur : Option SnapFile) (live : List Entry) : Prop
    extends Sound d cur where
  tracks : Tracks (snapIndex cur) [] (d.kept (minSegment cur)) live

section Appending

theorem append_sound (h : Sound d cur) (rec : Rec ID) : Sound (d.apply (.append rec)) cur :=
  ⟨Wal.append_ordered h.ordered [rec], h.newest, h.known⟩

theorem appendAll_sound (h : Sound d cur) (recs : List (Rec ID)) :
    Sound (d.applyAll (recs.map .append)) cur := by
  induction recs generalizing d with
  | nil => exact h
  | cons rec recs ih => exact ih (append_sound h rec)

/-- New records continue the log that is read from `minSeq` on. -/
theorem appendAll_tracks {recs : List (Rec ID)} (known : minSeq ≤ d.wal.active.segment.seq)
    (h : Tracks index [] (d.kept minSeq) live)
    (followed : recs.foldlM (follow index) live = some live') :
    Tracks index [] ((d.applyAll (recs.map .append)).kept minSeq) live' := by
  induction recs generalizing d live with
  | nil => cases followed; exact h
  | cons rec recs ih =>
      rw [List.foldlM_cons] at followed
      obtain ⟨mid, first, rest⟩ := Option.bind_eq_some_iff.mp followed
      rw [kept_split known] at h
      refine ih (d := d.apply (.append rec)) known ?_ rest
      rw [kept_append known]
      exact tracks_record h first

theorem appendAll_holds {recs : List (Rec ID)} (h : Holds d cur live)
    (followed : recs.foldlM (follow (snapIndex cur)) live = some live') :
    Holds (d.applyAll (recs.map .append)) cur live' :=
  ⟨appendAll_sound h.toSound recs, appendAll_tracks h.known h.tracks followed⟩

end Appending

section Rotation

variable {mem : Mem ID}

theorem create_sound (h : Sound d cur) (tag : Nat) : Sound (d.apply (.create tag)) cur :=
  ⟨Wal.rotate_ordered h.ordered tag [], h.newest, Nat.le_succ_of_le h.known⟩

theorem follow_hardStates (index : Nat) (live : List Entry) (states : List (HardState ID)) :
    (states.map Rec.hardState).foldlM (follow index) live = some live := by
  induction states with
  | nil => rfl
  | cons hs states ih => exact ih

/-- A rotation that is cut off after the new segment exists. -/
theorem rotateLocked_take (mem : Mem ID) (k : Nat) :
    mem.rotateLocked.take (k + 1) =
      .create (mem.lastIndex + 1) :: ((mem.hs.toList.take k).map Rec.hardState).map .append := by
  simp [Mem.rotateLocked, Function.comp_def]

theorem rotate_sound (mem : Mem ID) (h : Sound d cur) (k : Nat) :
    Sound (d.applyAll (mem.rotateLocked.take k)) cur := by
  cases k with
  | zero => exact h
  | succ k =>
      rw [rotateLocked_take]
      exact appendAll_sound (create_sound h _) _

/-- A rotation with a tag above the log does not touch it. -/
theorem rotate_tracks (known : minSeq ≤ d.wal.active.segment.seq)
    (h : Tracks index [] (d.kept minSeq) live) (last : live.length ≤ mem.lastIndex - index)
    (k : Nat) : Tracks index [] ((d.applyAll (mem.rotateLocked.take k)).kept minSeq) live := by
  cases k with
  | zero => exact h
  | succ k =>
      have created : Tracks index [] ((d.apply (.create (mem.lastIndex + 1))).kept minSeq) live := by
        rw [kept_create (Nat.le_succ_of_le known)]
        exact tracks_create h (by omega)
      rw [rotateLocked_take]
      exact appendAll_tracks (d := d.apply (.create (mem.lastIndex + 1))) (Nat.le_succ_of_le known)
        created (follow_hardStates _ _ _)

theorem rotate_holds (h : Holds d cur live) (last : live.length ≤ mem.lastIndex - snapIndex cur)
    (k : Nat) : Holds (d.applyAll (mem.rotateLocked.take k)) cur live :=
  ⟨rotate_sound mem h.toSound k, rotate_tracks h.known h.tracks last k⟩

/-- A rotation is one of the journal. -/
theorem applyAll_rotateLocked (d : Disk ID) (mem : Mem ID) :
    d.applyAll mem.rotateLocked =
      { d with wal := d.wal.rotate (mem.lastIndex + 1) (mem.hs.toList.map .hardState) } := by
  cases hs : mem.hs with
  | none => rw [Mem.rotateLocked, hs]; rfl
  | some hs' => rw [Mem.rotateLocked, hs]; rfl

end Rotation

section Renaming

/-- A snapshot that keeps the log drops what it covers. -/
theorem rename_holds (h : Holds d cur live) {f : SnapFile}
    (above : ∀ g ∈ d.snaps, g.index < f.index) (raised : snapIndex cur ≤ f.index)
    (same : f.snapMeta.minWalSegment = minSegment cur) :
    Holds (d.apply (.rename f)) (some f) (live.drop (f.index - snapIndex cur)) := by
  refine ⟨⟨h.ordered, newest_rename above, same.trans_le h.known⟩, ?_⟩
  have tracks := tracks_raise raised h.tracks
  rw [List.drop_nil] at tracks
  change Tracks f.index [] (d.kept f.snapMeta.minWalSegment) _
  rw [same]
  exact tracks

theorem kept_last (ordered : d.wal.Ordered) :
    d.kept d.wal.active.segment.seq = [d.wal.active] := by
  have none : d.wal.closed.filter (d.wal.active.segment.seq ≤ ·.segment.seq) = [] := by
    rw [List.filter_eq_nil_iff]
    intro s hs
    have before := Wal.closed_before ordered hs
    simp only [decide_eq_true_eq]
    omega
  rw [kept_split (Nat.le_refl _), none, List.nil_append]

/-- Only the new segment is read after a rotation, from its own number on. -/
theorem kept_rotated (ordered : d.wal.Ordered) (mem : Mem ID) :
    (d.applyAll mem.rotateLocked).kept (d.wal.active.segment.seq + 1) =
      [⟨⟨d.wal.active.segment.seq + 1, mem.lastIndex + 1⟩, mem.hs.toList.map .hardState⟩] := by
  rw [applyAll_rotateLocked]
  exact kept_last (d := { d with wal := d.wal.rotate _ _ }) (Wal.rotate_ordered ordered _ _)

theorem rotated_tracks (ordered : d.wal.Ordered) (mem : Mem ID) (index : Nat) :
    Tracks index [] ((d.applyAll mem.rotateLocked).kept (d.wal.active.segment.seq + 1)) [] := by
  rw [kept_rotated ordered]
  exact ⟨Nat.zero_le _, _, [], .refl _, follow_hardStates _ _ _, rfl⟩

/-- A snapshot whose first valid segments hold no entry yet discards the log. -/
theorem rename_discards (ordered : d.wal.Ordered) {f : SnapFile}
    (above : ∀ g ∈ d.snaps, g.index < f.index)
    (known : f.snapMeta.minWalSegment ≤ d.wal.active.segment.seq)
    (empty : Tracks f.index [] (d.kept f.snapMeta.minWalSegment) []) :
    Holds (d.apply (.rename f)) (some f) [] :=
  ⟨⟨ordered, newest_rename above, known⟩, empty⟩

end Renaming

section Collecting

variable {m : StoredMeta}

/-- The snapshot that a collection is done for is not newer than the newest. -/
structure Behind (m : StoredMeta) (cur : Option SnapFile) : Prop where
  index : m.lastIncludedIndex ≤ snapIndex cur
  segment : m.minWalSegment ≤ minSegment cur
  file : ∀ f, cur = some f → f.path = m.toSnapshotMeta ∨ m.lastIncludedIndex < f.index

theorem Collected.sound (h : Collected m d d') (behind : Behind m cur) (sound : Sound d cur) :
    Sound d' cur := by
  obtain ⟨old, rest, split, wal, -⟩ := h.wal
  have ordered := sound.ordered
  have all : d.wal.segments = old ++ d'.wal.segments := by
    rw [wal, Journal.segments, Journal.segments, split, List.append_assoc]
  rw [Journal.Ordered, all] at ordered
  refine ⟨(List.pairwise_append.mp ordered).2.1, ?_, ?_⟩
  · refine newest_subset sound.newest h.subset fun f hf => ?_
    subst hf
    exact h.kept f sound.newest.1 (behind.file f rfl)
  · rw [wal]
    exact sound.known

/-- A collection for a snapshot at or below `index` removes nothing that is above `index`. -/
theorem Collected.tracks (h : Collected m d d') (ordered : d.wal.Ordered)
    (segment : m.minWalSegment ≤ minSeq) (inside : m.lastIncludedIndex ≤ index)
    (tracks : Tracks index [] (d.kept minSeq) live) : Tracks index [] (d'.kept minSeq) live := by
  rcases h.kept_cases ordered segment with same | ⟨before, s, after, kept, left, tag⟩
  · rw [same]
    exact tracks
  · rw [kept] at tracks
    rw [left]
    exact tracks_from tracks (tag.trans (Nat.succ_le_succ inside))

theorem Collected.holds (h : Collected m d d') (behind : Behind m cur) (holds : Holds d cur live) :
    Holds d' cur live :=
  ⟨h.sound behind holds.toSound, h.tracks holds.ordered behind.segment behind.index holds.tracks⟩

variable {snapMeta : Option StoredMeta}

theorem gc_sound (h : Sound d cur) (behind : ∀ m, snapMeta = some m → Behind m cur) (k : Nat) :
    Sound (d.applyAll ((d.gcLocked snapMeta).take k)) cur := by
  cases snapMeta with
  | none => rw [Disk.gcLocked, List.take_nil]; exact h
  | some m => exact (gcLocked_collected h.ordered m k).sound (behind m rfl) h

theorem gc_tracks (ordered : d.wal.Ordered) (h : Tracks index [] (d.kept minSeq) live)
    (behind : ∀ m, snapMeta = some m → m.minWalSegment ≤ minSeq ∧ m.lastIncludedIndex ≤ index) :
    Tracks index [] ((d.applyAll (d.gcLocked snapMeta)).kept minSeq) live := by
  cases snapMeta with
  | none => exact h
  | some m =>
      obtain ⟨segment, inside⟩ := behind m rfl
      have collected := applyAll_whole (P := Collected m d) (gcLocked_collected ordered m)
      exact collected.tracks ordered segment inside h

theorem gc_holds (h : Holds d cur live) (behind : ∀ m, snapMeta = some m → Behind m cur) (k : Nat) :
    Holds (d.applyAll ((d.gcLocked snapMeta).take k)) cur live := by
  cases snapMeta with
  | none => rw [Disk.gcLocked, List.take_nil]; exact h
  | some m => exact (gcLocked_collected h.ordered m k).holds (behind m rfl) h

end Collecting

section Calls

variable {mem : Mem ID} {hs : Option (HardState ID)} {entries : List Entry}

/-- An effect list in two parts, cut anywhere. -/
theorem applyAll_cut {P : Disk ID → Prop} {a b : List (Effect ID)}
    (first : ∀ k, P (d.applyAll (a.take k))) (second : ∀ k, P ((d.applyAll a).applyAll (b.take k)))
    (k : Nat) : P (d.applyAll ((a ++ b).take k)) := by
  rw [List.take_append]
  rcases Nat.le_total k a.length with inside | past
  · rw [Nat.sub_eq_zero_of_le inside, List.take_zero, List.append_nil]
    exact first k
  · rw [List.take_of_length_le past, applyAll_append]
    exact second _

/-- What holds at every point of a rotation and of the collection after it. -/
theorem rotateFull_cut {P : Disk ID → Prop} (opts : Options ID) (mem : Mem ID)
    (rotates : ∀ k, P (d.applyAll (mem.rotateLocked.take k)))
    (collects : ∀ k, P ((d.applyAll mem.rotateLocked).applyAll
      (((d.applyAll mem.rotateLocked).gcLocked mem.snapMeta).take k))) (k : Nat) :
    P (d.applyAll ((d.rotateFull opts mem).take k)) := by
  rw [Disk.rotateFull]
  split
  · exact applyAll_cut rotates collects k
  · rw [List.take_nil]
    exact rotates 0

/-- A `Save` is cut off in its append or after it. -/
theorem save_take (opts : Options ID) (k : Nat) :
    (k ≤ (saveRecords hs entries).length ∧
      d.applyAll ((d.save opts mem hs entries).take k) =
        d.applyAll (((saveRecords hs entries).take k).map .append)) ∨
    ((saveRecords hs entries).length ≤ k ∧ ∃ n,
      d.applyAll ((d.save opts mem hs entries).take k) =
        (d.applyAll ((saveRecords hs entries).map .append)).applyAll
          (((d.applyAll ((saveRecords hs entries).map .append)).rotateFull opts
            (mem.saved hs entries)).take n)) := by
  rw [Disk.save, List.take_append, List.length_map]
  rcases Nat.le_total k (saveRecords hs entries).length with inside | past
  · left
    rw [Nat.sub_eq_zero_of_le inside, List.take_zero, List.append_nil, List.map_take]
    exact ⟨inside, rfl⟩
  · right
    refine ⟨past, k - (saveRecords hs entries).length, ?_⟩
    rw [List.take_of_length_le (by simpa using past), applyAll_append]

/-- The store knows the newest snapshot. -/
def Current (mem : Mem ID) (cur : Option SnapFile) : Prop := mem.snapMeta = cur.map (·.snapMeta)

/-- The store knows a snapshot that is not newer than the newest. -/
def Knows (mem : Mem ID) (cur : Option SnapFile) : Prop :=
  ∀ m, mem.snapMeta = some m → Behind m cur

theorem current_knows (current : Current mem cur) : Knows mem cur := by
  intro m hm
  rw [current] at hm
  obtain ⟨f, rfl, rfl⟩ := Option.map_eq_some_iff.mp hm
  refine ⟨Nat.le_refl _, Nat.le_refl _, fun g hg => ?_⟩
  cases hg
  exact Or.inl rfl

theorem Knows.saved (h : Knows mem cur) (hs : Option (HardState ID)) (entries : List Entry) :
    Knows (mem.saved hs entries) cur := h

theorem rotateFull_sound (opts : Options ID) (h : Sound d cur) (knows : Knows mem cur) (k : Nat) :
    Sound (d.applyAll ((d.rotateFull opts mem).take k)) cur := by
  refine rotateFull_cut (P := (Sound · cur)) opts mem (rotate_sound mem h) (fun n => ?_) k
  exact gc_sound (applyAll_whole (P := (Sound · cur)) (rotate_sound mem h)) knows n

theorem save_sound (opts : Options ID) (h : Sound d cur) (knows : Knows mem cur) (k : Nat) :
    Sound (d.applyAll ((d.save opts mem hs entries).take k)) cur := by
  rcases save_take opts k with ⟨-, cut⟩ | ⟨-, n, cut⟩
  · rw [cut]
    exact appendAll_sound h _
  · rw [cut]
    exact rotateFull_sound opts (appendAll_sound h _) (knows.saved hs entries) n

/-- An open store beside its files: its last index is not before the end of the log. -/
structure Serves (d : Disk ID) (mem : Mem ID) (cur : Option SnapFile) (live : List Entry) : Prop
    extends Holds d cur live where
  knows : Knows mem cur
  last : live.length ≤ mem.lastIndex - snapIndex cur

theorem rotateFull_holds (opts : Options ID) (h : Holds d cur live) (knows : Knows mem cur)
    (last : live.length ≤ mem.lastIndex - snapIndex cur) (k : Nat) :
    Holds (d.applyAll ((d.rotateFull opts mem).take k)) cur live := by
  refine rotateFull_cut (P := (Holds · cur live)) opts mem (rotate_holds h last) (fun n => ?_) k
  exact gc_holds (applyAll_whole (P := (Holds · cur live)) (rotate_holds h last)) knows n

/-- A log that can be followed can be followed up to any record. -/
theorem follow_take {index : Nat} {recs : List (Rec ID)}
    (followed : recs.foldlM (follow index) live = some live') (k : Nat) :
    ∃ mid, (recs.take k).foldlM (follow index) live = some mid := by
  rw [← List.take_append_drop k recs, List.foldlM_append] at followed
  obtain ⟨mid, begun, -⟩ := Option.bind_eq_some_iff.mp followed
  exact ⟨mid, begun⟩

/-- Every point of a `Save`: the files hold the log after the records so far. -/
theorem save_holds (opts : Options ID) (h : Serves d mem cur live)
    (followed : (saveRecords hs entries).foldlM (follow (snapIndex cur)) live = some live')
    (last : live'.length ≤ (mem.saved hs entries).lastIndex - snapIndex cur) (k : Nat) :
    ∃ mid, ((saveRecords hs entries).take k).foldlM (follow (snapIndex cur)) live = some mid ∧
      Holds (d.applyAll ((d.save opts mem hs entries).take k)) cur mid := by
  rcases save_take opts k with ⟨-, cut⟩ | ⟨past, n, cut⟩
  · obtain ⟨mid, begun⟩ := follow_take followed k
    rw [cut]
    exact ⟨mid, begun, appendAll_holds h.toHolds begun⟩
  · rw [List.take_of_length_le past, cut]
    exact ⟨live', followed,
      rotateFull_holds opts (appendAll_holds h.toHolds followed) (h.knows.saved hs entries) last n⟩

theorem save_serves (opts : Options ID) (h : Serves d mem cur live)
    (followed : (saveRecords hs entries).foldlM (follow (snapIndex cur)) live = some live')
    (last : live'.length ≤ (mem.saved hs entries).lastIndex - snapIndex cur) :
    Serves (d.applyAll (d.save opts mem hs entries)) (mem.saved hs entries) cur live' := by
  have enough : (saveRecords hs entries).length ≤ (d.save opts mem hs entries).length := by
    simp [Disk.save]
  obtain ⟨mid, same, holds⟩ := save_holds opts h followed last
    (d.save opts mem hs entries).length
  rw [List.take_of_length_le enough, followed] at same
  obtain rfl := Option.some.inj same
  rw [List.take_length] at holds
  exact ⟨holds, h.knows, last⟩

/-- A `Save`, for what is read from any segment on. -/
theorem save_tracks (opts : Options ID) (sound : Sound d cur)
    (known : minSeq ≤ d.wal.active.segment.seq) (h : Tracks index [] (d.kept minSeq) live)
    (behind : ∀ m, mem.snapMeta = some m → m.minWalSegment ≤ minSeq ∧ m.lastIncludedIndex ≤ index)
    (followed : (saveRecords hs entries).foldlM (follow index) live = some live')
    (last : live'.length ≤ (mem.saved hs entries).lastIndex - index) :
    Tracks index [] ((d.applyAll (d.save opts mem hs entries)).kept minSeq) live' := by
  have appended := appendAll_tracks known h followed
  have known' : minSeq ≤ (d.applyAll ((saveRecords hs entries).map .append)).wal.active.segment.seq := by
    rw [applyAll_append_records]
    exact known
  rw [Disk.save, applyAll_append, Disk.rotateFull]
  split
  · have sound' := applyAll_whole (P := (Sound · cur)) (rotate_sound (mem.saved hs entries)
      (appendAll_sound sound (saveRecords hs entries)))
    have rotated := applyAll_whole (P := fun d' => Tracks index [] (d'.kept minSeq) live')
      (rotate_tracks known' appended last)
    rw [applyAll_append]
    exact gc_tracks sound'.ordered rotated behind
  · exact appended

/-- What `SaveSnapshot` does under its first lock. -/
theorem startSnapshot_some {snapMeta : SnapshotMeta} {data : Bytes} {discardLog : Bool}
    {effects : List (Effect ID)} {mem' : Mem ID} {file : SnapFile}
    (h : d.startSnapshot mem snapMeta data discardLog = some (effects, mem', file)) :
    file.path = snapMeta ∧ file.data = data ∧
      (∀ m, mem.snapMeta = some m → m.lastIncludedIndex < snapMeta.lastIncludedIndex) ∧
      mem'.snapMeta = mem.snapMeta ∧ mem'.hs = mem.hs ∧
      ((discardLog = true ∧ mem'.lastIndex = snapMeta.lastIncludedIndex ∧
          effects = mem'.rotateLocked ∧
          file.snapMeta.minWalSegment = d.wal.active.segment.seq + 1) ∨
        (discardLog = false ∧ mem' = mem ∧ effects = [] ∧
          file.snapMeta.minWalSegment = (mem.snapMeta.map (·.minWalSegment)).getD 0)) := by
  rw [Disk.startSnapshot] at h
  split at h
  · cases h
  next fresh =>
    have newer : ∀ m, mem.snapMeta = some m → m.lastIncludedIndex < snapMeta.lastIncludedIndex := by
      intro m hm
      rw [hm] at fresh
      simpa using fresh
    split at h
    next discard =>
      obtain ⟨rfl, rfl, rfl⟩ := Prod.mk.inj (Option.some.inj h)
      refine ⟨rfl, rfl, newer, rfl, rfl, Or.inl ⟨discard, rfl, rfl, ?_⟩⟩
      simp only [applyAll_rotateLocked]
      rfl
    next keep =>
      obtain ⟨rfl, rfl, rfl⟩ := Prod.mk.inj (Option.some.inj h)
      exact ⟨rfl, rfl, newer, rfl, rfl, Or.inr ⟨by simpa using keep, rfl, rfl, rfl⟩⟩

/-- A snapshot that is newer than the known one is newer than every file. -/
theorem newer_above (newest : Newest d.snaps cur) (current : Current mem cur) {index : Nat}
    (newer : ∀ m, mem.snapMeta = some m → m.lastIncludedIndex < index) :
    (∀ g ∈ d.snaps, g.index < index) ∧ snapIndex cur ≤ index := by
  cases cur with
  | none =>
      rw [show d.snaps = [] from newest]
      exact ⟨by simp, Nat.zero_le _⟩
  | some f =>
      have last : f.index < index := newer f.snapMeta current
      refine ⟨fun g hg => ?_, last.le⟩
      rcases newest.2 g hg with rfl | older
      · exact last
      · exact older.trans last

theorem publish_newer {m : StoredMeta}
    (newer : ∀ m', mem.snapMeta = some m' → m'.lastIncludedIndex < m.lastIncludedIndex) :
    mem.publish m = { mem with snapMeta := some m } := by
  refine if_pos ?_
  cases known : mem.snapMeta with
  | none => rfl
  | some m' => simpa using newer m' known

end Calls

end EdgeKV.RaftStore
