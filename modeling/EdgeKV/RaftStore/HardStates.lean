import EdgeKV.RaftStore.System

/-!
Term and vote. The hard state survives because every new segment starts with a copy of it.
A crash may leave a segment without its copy, and a collection may then remove the last
segment that has one.
-/
namespace EdgeKV.RaftStore

open Wal (Segment LogSegment Journal)

variable {ID : Type}

/-- The hard state after some effects of `Save`. -/
def hardStateAfter (hs : Option (HardState ID)) : List (StorageOp ID) → Option (HardState ID)
  | [] => hs
  | .hardState hs' :: ops => hardStateAfter (some hs') ops
  | _ :: ops => hardStateAfter hs ops

/-- The hard state that Raft works with after a move. -/
def Move.hardState (mv : Move ID) (promised : Option (HardState ID)) : Option (HardState ID) :=
  match mv.loaded with
  | some l => l.hardState
  | none => hardStateAfter promised mv.ops

/-- A run of the store with arbitrary arguments, and the hard state that it has promised. -/
inductive StateRun (opts : Options ID) (allowed : System ID → Action ID → Prop) :
    System ID → Option (HardState ID) → Prop
  | fresh : StateRun opts allowed { disk := Disk.fresh } none
  | act {s : System ID} {promised : Option (HardState ID)} {a : Action ID} {mv : Move ID}
      (h : StateRun opts allowed s promised) (ok : allowed s a) (moves : s.act opts a = some mv) :
      StateRun opts allowed (s.next mv) (mv.hardState promised)
  | crash {s : System ID} {promised : Option (HardState ID)} {a : Action ID} {mv : Move ID} {k : Nat}
      (h : StateRun opts allowed s promised) (ok : allowed s a) (moves : s.act opts a = some mv) :
      StateRun opts allowed (s.cut mv k) (hardStateAfter promised (mv.ops.take k))

/-- From every segment on whose tag is inside the snapshot there is a hard state, if there
is one before it. -/
def Restated (index : Nat) (segs : List (LogSegment (Rec ID))) : Prop :=
  ∀ before s after, segs = before ++ s :: after → s.segment.tag ≤ index + 1 →
    lastHardState (before.flatMap (·.records)) ≠ none →
      lastHardState ((s :: after).flatMap (·.records)) ≠ none

/-- The actions that collect segments do so for a snapshot with this property. -/
def Restating (s : System ID) : Action ID → Prop
  | .load => ∀ f, s.disk.newest = some f → Restated f.index (s.disk.kept f.snapMeta.minWalSegment)
  | .publish => ∀ st p, s.up = some st → st.pending = some p →
      Restated p.file.index (s.disk.kept p.file.snapMeta.minWalSegment)
  | _ => True

section Files

variable {d d' : Disk ID} {minSeq : Nat} {hs : Option (HardState ID)} {mem : Mem ID}

/-- The hard state that is read from `minSeq` on. -/
def States (d : Disk ID) (minSeq : Nat) (hs : Option (HardState ID)) : Prop :=
  lastHardState (d.wal.records minSeq) = hs

theorem records_append (known : minSeq ≤ d.wal.active.segment.seq) (rec : Rec ID) :
    (d.apply (.append rec)).wal.records minSeq = d.wal.records minSeq ++ [rec] := by
  have before := congrArg (List.flatMap (·.records)) (kept_split known)
  have after := congrArg (List.flatMap (·.records)) (kept_append known rec)
  simp only [List.flatMap_append, List.flatMap_singleton] at before after
  change ((d.apply (.append rec)).kept minSeq).flatMap _ = (d.kept minSeq).flatMap _ ++ [rec]
  rw [before, after, List.append_assoc]

theorem records_appendAll (known : minSeq ≤ d.wal.active.segment.seq) (recs : List (Rec ID)) :
    (d.applyAll (recs.map .append)).wal.records minSeq = d.wal.records minSeq ++ recs := by
  induction recs generalizing d with
  | nil => rw [List.append_nil]; rfl
  | cons rec recs ih =>
      have rest := ih (d := d.apply (.append rec)) known
      rw [records_append known, List.append_assoc] at rest
      exact rest

theorem records_create (known : minSeq ≤ d.wal.active.segment.seq + 1) (tag : Nat) :
    (d.apply (.create tag)).wal.records minSeq = d.wal.records minSeq := by
  have after := congrArg (List.flatMap (·.records)) (kept_create known tag)
  rw [List.flatMap_append, List.flatMap_singleton, List.append_nil] at after
  exact after

theorem records_rotated (known : minSeq ≤ d.wal.active.segment.seq + 1) (mem : Mem ID) :
    (d.applyAll mem.rotateLocked).wal.records minSeq =
      d.wal.records minSeq ++ mem.hs.toList.map .hardState := by
  have effects : mem.rotateLocked =
      .create (mem.lastIndex + 1) :: (mem.hs.toList.map Rec.hardState).map .append := by
    simp [Mem.rotateLocked, Function.comp_def]
  rw [effects, applyAll_cons, records_appendAll known, records_create known]

theorem appendAll_states (known : minSeq ≤ d.wal.active.segment.seq) (h : States d minSeq hs)
    (recs : List (Rec ID)) :
    States (d.applyAll (recs.map .append)) minSeq ((lastHardState recs).or hs) := by
  rw [States, records_appendAll known, lastHardState_append, h]

theorem lastHardState_heads (hs : Option (HardState ID)) :
    lastHardState (hs.toList.map Rec.hardState) = hs := by
  cases hs with
  | none => rfl
  | some hs => rfl

/-- A rotation restates what is there already. -/
theorem rotate_states (known : minSeq ≤ d.wal.active.segment.seq) (h : States d minSeq mem.hs)
    (k : Nat) : States (d.applyAll (mem.rotateLocked.take k)) minSeq mem.hs := by
  cases k with
  | zero => exact h
  | succ k =>
      rw [rotateLocked_take, applyAll_cons, States,
        records_appendAll (Nat.le_succ_of_le known), records_create (Nat.le_succ_of_le known),
        lastHardState_append, h]
      cases k with
      | zero => rfl
      | succ k =>
          have all : mem.hs.toList.take (k + 1) = mem.hs.toList :=
            List.take_of_length_le (by cases mem.hs <;> simp)
          rw [all, lastHardState_heads, Option.or_self]

/-- After a rotation the last segment restates the hard state. -/
theorem rotated_restated (known : minSeq ≤ d.wal.active.segment.seq) (h : States d minSeq mem.hs)
    (index : Nat) : Restated index ((d.applyAll mem.rotateLocked).kept minSeq) := by
  intro before s after split _ stated
  have rotated := applyAll_whole (P := (States · minSeq mem.hs)) (rotate_states known h)
  have all : lastHardState ((before ++ s :: after).flatMap (·.records)) = mem.hs := split ▸ rotated
  cases hs : mem.hs with
  | none =>
      rw [hs, List.flatMap_append, lastHardState_append, Option.or_eq_none_iff] at all
      exact absurd all.2 stated
  | some state =>
      -- the part after the boundary ends with the new segment
      have last : (before ++ s :: after).getLast? =
          some ⟨⟨d.wal.active.segment.seq + 1, mem.lastIndex + 1⟩, [.hardState state]⟩ := by
        rw [← split, applyAll_rotateLocked, hs]
        rw [kept_split (Nat.le_succ_of_le known), List.getLast?_concat]
        rfl
      rw [List.getLast?_append_of_ne_nil _ (List.cons_ne_nil s after)] at last
      obtain ⟨init, ends⟩ := List.getLast?_eq_some_iff.mp last
      rw [ends, List.flatMap_append, lastHardState_append]
      exact fun none => nomatch none

theorem collected_states {m : StoredMeta} (h : Collected m d d') (ordered : d.wal.Ordered)
    (le : m.minWalSegment ≤ minSeq) (restated : Restated m.lastIncludedIndex (d.kept minSeq))
    (states : States d minSeq hs) : States d' minSeq hs := by
  rcases h.kept_cases ordered le with same | ⟨before, s, after, kept, left, tag⟩
  · have records : d'.wal.records minSeq = d.wal.records minSeq :=
      congrArg (List.flatMap LogSegment.records) same
    rw [States, records]
    exact states
  · have whole : lastHardState ((before ++ s :: after).flatMap (·.records)) = hs := kept ▸ states
    change lastHardState ((d'.kept minSeq).flatMap (·.records)) = hs
    rw [left]
    rw [List.flatMap_append, lastHardState_append] at whole
    cases first : lastHardState (before.flatMap (·.records)) with
    | none =>
        rw [first, Option.or_none] at whole
        exact whole
    | some state =>
        have later := restated before s after kept tag (by rw [first]; exact fun none => nomatch none)
        obtain ⟨found, eq⟩ := Option.ne_none_iff_exists'.mp later
        rw [eq] at whole ⊢
        exact whole

theorem gc_states {snapMeta : Option StoredMeta} (ordered : d.wal.Ordered) (h : States d minSeq hs)
    (covered : ∀ m, snapMeta = some m →
      m.minWalSegment ≤ minSeq ∧ Restated m.lastIncludedIndex (d.kept minSeq)) (k : Nat) :
    States (d.applyAll ((d.gcLocked snapMeta).take k)) minSeq hs := by
  cases snapMeta with
  | none => rw [Disk.gcLocked, List.take_nil]; exact h
  | some m =>
      obtain ⟨le, restated⟩ := covered m rfl
      exact collected_states (gcLocked_collected ordered m k) ordered le restated h

theorem rotateFull_states (opts : Options ID) (ordered : d.wal.Ordered)
    (known : minSeq ≤ d.wal.active.segment.seq) (h : States d minSeq mem.hs)
    (le : ∀ m, mem.snapMeta = some m → m.minWalSegment ≤ minSeq) (k : Nat) :
    States (d.applyAll ((d.rotateFull opts mem).take k)) minSeq mem.hs := by
  refine rotateFull_cut (P := (States · minSeq mem.hs)) opts mem (rotate_states known h) ?_ k
  intro n
  have rotated := applyAll_whole (P := (States · minSeq mem.hs)) (rotate_states known h)
  refine gc_states ?_ rotated ?_ n
  · rw [applyAll_rotateLocked]
    exact Wal.rotate_ordered ordered _ _
  · intro m hm
    exact ⟨le m hm, rotated_restated known h m.lastIncludedIndex⟩

theorem hardStateAfter_records (promised : Option (HardState ID)) (recs : List (Rec ID)) :
    hardStateAfter promised (recs.map Rec.op) = (lastHardState recs).or promised := by
  induction recs generalizing promised with
  | nil => rfl
  | cons rec recs ih =>
      cases rec with
      | hardState hs =>
          rw [lastHardState, Option.or_assoc]
          exact ih (some hs)
      | entry e => exact ih promised

theorem lastHardState_saveRecords (hs : Option (HardState ID)) (entries : List Entry) :
    lastHardState (saveRecords hs entries) = hs := by
  have none : lastHardState (entries.map fun e => (Rec.entry e : Rec ID)) = none := by
    induction entries with
    | nil => rfl
    | cons e entries ih => exact ih
  rw [saveRecords, lastHardState_append, none, Option.none_or, lastHardState_heads]

theorem saved_hs (hs : Option (HardState ID)) (entries : List Entry) :
    (mem.saved hs entries).hs = hs.or mem.hs := by
  cases hs with
  | none => rfl
  | some hs => rfl

/-- Every point of a `Save`: the hard state after the records so far. -/
theorem save_states (opts : Options ID) {cur : Option SnapFile} (sound : Sound d cur)
    (known : minSeq ≤ d.wal.active.segment.seq) (h : States d minSeq mem.hs)
    (le : ∀ m, mem.snapMeta = some m → m.minWalSegment ≤ minSeq) (hs : Option (HardState ID))
    (entries : List Entry) (k : Nat) :
    States (d.applyAll ((d.save opts mem hs entries).take k)) minSeq
      (hardStateAfter mem.hs ((EdgeKV.save hs entries).take k)) := by
  rw [save_ops, ← List.map_take, hardStateAfter_records]
  rcases save_take opts k with ⟨-, cut⟩ | ⟨past, n, cut⟩
  · rw [cut]
    exact appendAll_states known h _
  · rw [cut, List.take_of_length_le past, lastHardState_saveRecords]
    have appended := appendAll_states known h (saveRecords hs entries)
    rw [lastHardState_saveRecords] at appended
    rw [← saved_hs hs entries] at appended ⊢
    exact rotateFull_states opts (appendAll_sound sound _).ordered (known.trans (active_le d _))
      appended le n

theorem save_states_all (opts : Options ID) {cur : Option SnapFile} (sound : Sound d cur)
    (known : minSeq ≤ d.wal.active.segment.seq) (h : States d minSeq mem.hs)
    (le : ∀ m, mem.snapMeta = some m → m.minWalSegment ≤ minSeq) (hs : Option (HardState ID))
    (entries : List Entry) :
    States (d.applyAll (d.save opts mem hs entries)) minSeq (mem.saved hs entries).hs := by
  have enough : (EdgeKV.save hs entries).length ≤ (d.save opts mem hs entries).length := by
    rw [save_ops, List.length_map]
    simp [Disk.save]
  have states := save_states opts sound known h le hs entries (d.save opts mem hs entries).length
  rw [List.take_length, List.take_of_length_le enough, save_ops, hardStateAfter_records,
    lastHardState_saveRecords, ← saved_hs hs entries] at states
  exact states

end Files

section Invariant

variable {opts : Options ID} {d : Disk ID} {st : Opened ID} {cur : Option SnapFile}
  {promised : Option (HardState ID)} {s : System ID} {mv : Move ID}

/-- An open store and its files agree on the hard state, also for the snapshot of a call in
progress. -/
structure Stated (d : Disk ID) (st : Opened ID) (cur : Option SnapFile)
    (promised : Option (HardState ID)) : Prop extends Well d st cur where
  mem : st.mem.hs = promised
  files : States d (minSegment cur) promised
  next : ∀ p, st.pending = some p → States d p.file.snapMeta.minWalSegment promised

/-- The files hold the hard state that was promised. -/
def Promised (s : System ID) (promised : Option (HardState ID)) : Prop :=
  ∃ cur,
    match s.up with
    | none => Sound s.disk cur ∧ States s.disk (minSegment cur) promised
    | some st => Stated s.disk st cur promised

theorem load_states (sound : Sound d cur) (states : States d (minSegment cur) promised)
    {loaded : Loaded ID} {mem : Mem ID} (read : d.load = .ok (loaded, mem)) :
    loaded.hardState = promised ∧ mem.hs = promised := by
  obtain ⟨st, replayed, eq⟩ := load_ok sound.newest read
  have last := (replay_result replayed).1
  rw [Option.or_none, show lastHardState _ = promised from states] at last
  cases eq
  exact ⟨last, last⟩

/-- The collection of `Load` and of `SaveSnapshot` is for the newest snapshot. -/
theorem gc_current (sound : Sound d cur) (states : States d (minSegment cur) promised)
    {mem : Mem ID} (current : Current mem cur)
    (restated : ∀ f, cur = some f → Restated f.index (d.kept f.snapMeta.minWalSegment)) (k : Nat) :
    States (d.applyAll ((d.gcLocked mem.snapMeta).take k)) (minSegment cur) promised := by
  refine gc_states sound.ordered states ?_ k
  intro m hm
  rw [current] at hm
  obtain ⟨f, rfl, rfl⟩ := Option.map_eq_some_iff.mp hm
  exact ⟨Nat.le_refl _, restated f rfl⟩

theorem start_stated (h : Stated d st cur promised) (idle : st.pending = none)
    {snapMeta : SnapshotMeta} {data : Bytes} {discardLog : Bool} {effects : List (Effect ID)}
    {mem : Mem ID} {file : SnapFile}
    (started : d.startSnapshot st.mem snapMeta data discardLog = some (effects, mem, file)) :
    (∀ k, States (d.applyAll (effects.take k)) (minSegment cur) promised) ∧
      Stated (d.applyAll effects) { mem, pending := some { file, discardLog } } cur promised := by
  have well := start_well h.toWell idle started
  obtain ⟨-, -, -, -, same, how⟩ := startSnapshot_some started
  have hs : mem.hs = promised := same.trans h.mem
  rcases how with ⟨rfl, -, rfl, first⟩ | ⟨rfl, rfl, rfl, -⟩
  · have rotated := rotate_states h.known (hs ▸ h.files)
    have whole := applyAll_whole (P := (States · (minSegment cur) mem.hs)) rotated
    rw [hs] at whole
    refine ⟨fun k => hs ▸ rotated k, well, hs, whole, ?_⟩
    intro p hp
    cases hp
    have only := congrArg (List.flatMap LogSegment.records) (kept_rotated h.ordered mem)
    rw [← first, List.flatMap_singleton] at only
    change lastHardState ((Disk.kept _ file.snapMeta.minWalSegment).flatMap _) = promised
    rw [only, lastHardState_heads, hs]
  · refine ⟨fun k => List.take_nil.symm ▸ h.files, well, hs, h.files, ?_⟩
    intro p hp
    cases hp
    have keeps := (well.prepared _ rfl).keeps rfl rfl
    rw [keeps]
    exact h.files

theorem save_stated (opts : Options ID) (h : Stated d st cur promised) (hs : Option (HardState ID))
    (entries : List Entry) :
    Stated (d.applyAll (d.save opts st.mem hs entries)) { st with mem := st.mem.saved hs entries } cur
      (hardStateAfter promised (EdgeKV.save hs entries)) := by
  have after : hardStateAfter promised (EdgeKV.save hs entries) = (st.mem.saved hs entries).hs := by
    rw [save_ops, hardStateAfter_records, lastHardState_saveRecords, saved_hs, h.mem]
  rw [after]
  refine ⟨save_well opts h.toWell hs entries, rfl, ?_, ?_⟩
  · have states := h.files
    rw [← h.mem] at states
    exact save_states_all opts h.toSound h.known states (fun m hm => (h.knows m hm).segment) hs entries
  · intro p pending
    obtain ⟨known, le⟩ := pending_known h.toWell pending
    have states := h.next p pending
    rw [← h.mem] at states
    exact save_states_all opts h.toSound known states le hs entries

theorem load_stated (sound : Sound d cur) (states : States d (minSegment cur) promised)
    {loaded : Loaded ID} {mem : Mem ID} (read : d.load = .ok (loaded, mem))
    (restated : ∀ f, cur = some f → Restated f.index (d.kept f.snapMeta.minWalSegment)) :
    Stated (d.applyAll (d.gcLocked mem.snapMeta)) { mem } cur promised := by
  have collected := applyAll_whole (P := (States · (minSegment cur) promised))
    (gc_current sound states (load_current sound.newest read) restated)
  exact ⟨load_well sound read, (load_states sound states read).2, collected, fun p hp => (nomatch hp)⟩

theorem rename_stated (h : Stated d st cur promised) {p : Pending} (pending : st.pending = some p)
    (unwritten : p.written = false) :
    Stated (d.apply (.rename p.file)) { st with pending := some { p with written := true } }
      (some p.file) promised := by
  refine ⟨rename_well h.toWell pending unwritten, h.mem, h.next p pending, ?_⟩
  intro q hq
  cases hq
  exact h.next p pending

theorem publish_stated (h : Stated d st cur promised) {p : Pending} (pending : st.pending = some p)
    (written : p.written = true)
    (restated : ∀ f, cur = some f → Restated f.index (d.kept f.snapMeta.minWalSegment)) :
    Stated (d.applyAll (d.gcLocked (st.mem.publish p.file.snapMeta).snapMeta))
      { mem := st.mem.publish p.file.snapMeta } cur promised := by
  obtain ⟨published, current⟩ := publish_current h.toWell pending written
  have collected := applyAll_whole (P := (States · (minSegment cur) promised))
    (gc_current h.toSound h.files current restated)
  refine ⟨publish_well h.toWell pending written, ?_, collected, fun p hp => (nomatch hp)⟩
  rw [published]
  exact h.mem

theorem publish_restated (h : Stated s.disk st cur promised) {p : Pending}
    (pending : st.pending = some p) (written : p.written = true) (up : s.up = some st)
    (ok : Restating s .publish) :
    ∀ f, cur = some f → Restated f.index (s.disk.kept f.snapMeta.minWalSegment) := by
  intro f hf
  rw [(h.prepared p pending).placed written] at hf
  cases hf
  exact ok st p up pending

theorem act_promised {a : Action ID} (h : Promised s promised) (ok : Restating s a)
    (moves : s.act opts a = some mv) : Promised (s.next mv) (mv.hardState promised) := by
  obtain ⟨cur, state⟩ := h
  cases a with
  | load =>
      obtain ⟨down, loaded, mem, read, rfl⟩ := act_load moves
      rw [down] at state
      obtain ⟨sound, states⟩ := state
      have stated := load_stated sound states read fun f hf =>
        ok f ((newest_eq sound.newest).trans hf)
      rw [← (load_states sound states read).1] at stated
      exact ⟨cur, stated⟩
  | save hs entries =>
      obtain ⟨st, up, rfl⟩ := act_save moves
      rw [up] at state
      exact ⟨cur, save_stated opts state hs entries⟩
  | start snapMeta data discardLog =>
      obtain ⟨st, up, idle, ⟨stale, rfl⟩ | ⟨effects, mem, file, started, rfl⟩⟩ := act_start moves
      · rw [up] at state
        exact ⟨cur, state⟩
      · rw [up] at state
        exact ⟨cur, (start_stated state idle started).2⟩
  | rename =>
      obtain ⟨st, p, up, pending, unwritten, rfl⟩ := act_rename moves
      rw [up] at state
      exact ⟨some p.file, rename_stated state pending unwritten⟩
  | publish =>
      obtain ⟨st, p, up, pending, written, rfl⟩ := act_publish moves
      rw [up] at state
      exact ⟨cur, publish_stated state pending written (publish_restated state pending written up ok)⟩

theorem crash_promised {a : Action ID} {k : Nat} (h : Promised s promised) (ok : Restating s a)
    (moves : s.act opts a = some mv) :
    Promised (s.cut mv k) (hardStateAfter promised (mv.ops.take k)) := by
  obtain ⟨cur, state⟩ := h
  cases a with
  | load =>
      obtain ⟨down, loaded, mem, read, rfl⟩ := act_load moves
      rw [down] at state
      obtain ⟨sound, states⟩ := state
      have current := load_current sound.newest read
      have restated : ∀ f, cur = some f → _ := fun f hf => ok f ((newest_eq sound.newest).trans hf)
      rw [List.take_nil]
      exact ⟨cur, gc_sound sound (current_knows current) k, gc_current sound states current restated k⟩
  | save hs entries =>
      obtain ⟨st, up, rfl⟩ := act_save moves
      rw [up] at state
      have state : Stated s.disk st cur promised := state
      have states := state.files
      rw [← state.mem] at states
      refine ⟨cur, save_sound opts state.toSound state.knows k, ?_⟩
      rw [← state.mem]
      exact save_states opts state.toSound state.known states (fun m hm => (state.knows m hm).segment)
        hs entries k
  | start snapMeta data discardLog =>
      obtain ⟨st, up, idle, ⟨stale, rfl⟩ | ⟨effects, mem, file, started, rfl⟩⟩ := act_start moves
      · rw [up] at state
        have state : Stated s.disk st cur promised := state
        rw [System.cut, List.take_nil, List.take_nil]
        exact ⟨cur, state.toSound, state.files⟩
      · rw [up] at state
        have state : Stated s.disk st cur promised := state
        rw [List.take_nil]
        refine ⟨cur, start_cut_sound state.toWell started k, (start_stated state idle started).1 k⟩
  | rename =>
      obtain ⟨st, p, up, pending, unwritten, rfl⟩ := act_rename moves
      rw [up] at state
      have state : Stated s.disk st cur promised := state
      cases k with
      | zero => exact ⟨cur, state.toSound, state.files⟩
      | succ k =>
          rw [System.cut, List.take_of_length_le (by simp), List.take_of_length_le (by simp)]
          exact ⟨some p.file, (rename_well state.toWell pending unwritten).toSound,
            state.next p pending⟩
  | publish =>
      obtain ⟨st, p, up, pending, written, rfl⟩ := act_publish moves
      rw [up] at state
      have state : Stated s.disk st cur promised := state
      obtain ⟨-, current⟩ := publish_current state.toWell pending written
      rw [List.take_nil]
      exact ⟨cur, gc_sound state.toSound (current_knows current) k,
        gc_current state.toSound state.files current (publish_restated state pending written up ok) k⟩

theorem run_promised (run : StateRun opts Restating s promised) : Promised s promised := by
  induction run with
  | fresh => exact ⟨none, fresh_refines.toSound, rfl⟩
  | act _ ok moves ih => exact act_promised ih ok moves
  | crash _ ok moves ih => exact crash_promised ih ok moves

end Invariant

theorem hardState_kept (opts : Options ID) (s : System ID) (promised : Option (HardState ID))
    (run : StateRun opts Restating s promised) (down : s.up = none) (loaded : Loaded ID)
    (mem : Mem ID) (read : s.disk.load = .ok (loaded, mem)) : loaded.hardState = promised := by
  obtain ⟨cur, state⟩ := run_promised run
  rw [down] at state
  exact (load_states state.1 state.2 read).1

section Samples

/-- A second segment that starts with the hard state restates it. -/
theorem restated_pair (index : Nat) (s t : LogSegment (Rec ID)) {hs : HardState ID}
    {recs : List (Rec ID)} (head : t.records = .hardState hs :: recs) : Restated index [s, t] := by
  intro before x after split _ stated
  cases before with
  | nil => exact absurd rfl stated
  | cons y before =>
      cases before with
      | nil =>
          cases split
          rw [List.flatMap_singleton, head, lastHardState]
          simp
      | cons z before => simp at split

/-- A vote is saved, and its segment is sealed and then collected for a snapshot. -/
theorem hardState_kept_vote :
    ∃ s loaded mem, StateRun smallSegments Restating s (some ⟨1, some 4⟩) ∧ s.up = none ∧
      s.disk.wal.segments.map (·.segment) = [⟨2, 2⟩] ∧ s.disk.load = .ok (loaded, mem) ∧
      loaded.hardState = some ⟨1, some 4⟩ := by
  have opened : StateRun smallSegments Restating _ _ :=
    .act (a := .load) .fresh (fun f hf => nomatch hf) rfl
  have saved : StateRun smallSegments Restating _ _ :=
    .act (a := .save (some ⟨1, some 4⟩) [blank 1 1]) opened trivial rfl
  have started : StateRun smallSegments Restating _ _ :=
    .act (a := .start ⟨1, 1⟩ [7] false) saved trivial rfl
  have renamed : StateRun smallSegments Restating _ _ := .act (a := .rename) started trivial rfl
  have published : StateRun smallSegments Restating _ _ :=
    .act (a := .publish) renamed
      (fun st p up pending => by cases up; cases pending; exact restated_pair _ _ _ rfl) rfl
  have down : StateRun smallSegments Restating _ _ :=
    .crash (a := .save none []) (k := 0) published trivial rfl
  exact ⟨_, _, _, down, rfl, rfl, rfl, hardState_kept smallSegments _ _ down rfl _ _ rfl⟩

/-- A vote is saved. A crash hits the rotation of the next `Save` after it has made the new
segment. `Load` still finds the vote, but the next snapshot collects the segments with it,
and the new one has no copy. -/
theorem hardState_lost :
    ∃ s loaded mem, StateRun smallSegments (fun _ _ => True) s (some ⟨1, some 4⟩) ∧ s.up = none ∧
      s.disk.load = .ok (loaded, mem) ∧ loaded.hardState = none := by
  have opened : StateRun smallSegments (fun _ _ => True) _ _ :=
    .act (a := .load) .fresh trivial rfl
  have saved : StateRun smallSegments (fun _ _ => True) _ _ :=
    .act (a := .save (some ⟨1, some 4⟩) [blank 1 1]) opened trivial rfl
  have crashed : StateRun smallSegments (fun _ _ => True) _ _ :=
    .crash (a := .save none [blank 2 1]) (k := 2) saved trivial rfl
  have reopened : StateRun smallSegments (fun _ _ => True) _ _ :=
    .act (a := .load) crashed trivial rfl
  have started : StateRun smallSegments (fun _ _ => True) _ _ :=
    .act (a := .start ⟨2, 1⟩ [] false) reopened trivial rfl
  have renamed : StateRun smallSegments (fun _ _ => True) _ _ :=
    .act (a := .rename) started trivial rfl
  have published : StateRun smallSegments (fun _ _ => True) _ _ :=
    .act (a := .publish) renamed trivial rfl
  have down : StateRun smallSegments (fun _ _ => True) _ _ :=
    .crash (a := .save none []) (k := 0) published trivial rfl
  exact ⟨_, _, _, down, rfl, rfl, rfl⟩

end Samples

end EdgeKV.RaftStore
