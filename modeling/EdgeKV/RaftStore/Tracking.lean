import EdgeKV.RaftStore.Files

/-!
What the records in the log mean. A record for an index was written by a log that ended
just before it, so reading the records in order follows the log above any index. `Load`
does the same, except that it passes over records at or below the snapshot, where the log
was cut off.
-/
namespace EdgeKV.RaftStore

open Wal (Segment LogSegment Journal)

variable {ID : Type} {d d' : Disk ID}

/-- The log above `index` after a record, as it was when the record was written. -/
def follow (index : Nat) (live : List Entry) : Rec ID → Option (List Entry)
  | .hardState _ => some live
  | .entry e =>
      if e.index ≤ index then some []
      else if live.length < e.index - index - 1 then none
      else some (live.take (e.index - index - 1) ++ [e])

/-- Some records at or below `index` are left out. -/
inductive Thinned (index : Nat) : List (Rec ID) → List (Rec ID) → Prop
  | nil : Thinned index [] []
  | keep {rec : Rec ID} {recs recs' : List (Rec ID)} (h : Thinned index recs recs') :
      Thinned index (rec :: recs) (rec :: recs')
  | skip {e : Entry} {recs recs' : List (Rec ID)} (below : e.index ≤ index)
      (h : Thinned index recs recs') : Thinned index (.entry e :: recs) recs'

/-- The log above `index` before and after some segments. The tag of a segment is above
every index of the log at its start. A record below `index` that an earlier `Load` has passed
over is left out: the log was not cut off there for good. -/
def Tracks (index : Nat) : List Entry → List (LogSegment (Rec ID)) → List Entry → Prop
  | live, [], live' => live = live'
  | live, s :: segs, live' =>
      live.length ≤ s.segment.tag - (index + 1) ∧
        ∃ recs mid, Thinned index s.records recs ∧ recs.foldlM (follow index) live = some mid ∧
          Tracks index mid segs live'

/-- No segment starts at or below an entry that `Load` reads before it. -/
def Tagged (index : Nat) (segs : List (LogSegment (Rec ID))) : Prop :=
  ∀ before s after, segs = before ++ s :: after → ∀ st,
    (before.flatMap (·.records)).foldlM (replay index) (none, []) = .ok st →
      st.2.length ≤ s.segment.tag - (index + 1)

/-- The entries have the indexes that follow `index`. -/
def Numbered (index : Nat) (entries : List Entry) : Prop :=
  ∀ i e, entries[i]? = some e → e.index = index + 1 + i

/-- The last hard state among the records. -/
def lastHardState : List (Rec ID) → Option (HardState ID)
  | [] => none
  | .hardState hs :: recs => (lastHardState recs).or (some hs)
  | .entry _ :: recs => lastHardState recs

section Records

variable {index index' : Nat} {live live' : List Entry} {rec : Rec ID} {recs : List (Rec ID)}

theorem lastHardState_append (recs recs' : List (Rec ID)) :
    lastHardState (recs ++ recs') = (lastHardState recs').or (lastHardState recs) := by
  induction recs with
  | nil => simp [lastHardState]
  | cons rec recs ih =>
      cases rec with
      | hardState hs => simp only [List.cons_append, lastHardState, ih, Option.or_assoc]
      | entry e => exact ih

theorem numbered_nil (index : Nat) : Numbered index [] := fun _ _ he => by simp at he

theorem numbered_cons {e : Entry} {entries : List Entry} :
    Numbered index (e :: entries) ↔ e.index = index + 1 ∧ Numbered (index + 1) entries := by
  constructor
  · intro numbered
    refine ⟨numbered 0 e rfl, fun i x hx => ?_⟩
    have := numbered (i + 1) x hx
    omega
  · rintro ⟨first, rest⟩ i x hx
    cases i with
    | zero => cases hx; exact first
    | succ i =>
        have := rest i x hx
        omega

theorem follow_numbered (numbered : Numbered index live) (h : follow index live rec = some live') :
    Numbered index live' := by
  cases rec with
  | hardState hs => cases h; exact numbered
  | entry e =>
      rw [follow] at h
      split at h
      · cases h
        exact numbered_nil index
      next above =>
        split at h
        · cases h
        next room =>
          cases h
          intro i x hx
          have size : (live.take (e.index - index - 1)).length = e.index - index - 1 :=
            List.length_take_of_le (by omega)
          rcases Nat.lt_trichotomy i (e.index - index - 1) with lt | eq | gt
          · rw [List.getElem?_append_left (by omega), List.getElem?_take_of_lt lt] at hx
            exact numbered i x hx
          · rw [eq, List.getElem?_append_right (by omega), size, Nat.sub_self] at hx
            cases hx
            omega
          · rw [List.getElem?_append_right (by omega), List.getElem?_eq_none (by simp; omega)] at hx
            cases hx

theorem foldlM_follow_numbered (numbered : Numbered index live)
    (h : recs.foldlM (follow index) live = some live') : Numbered index live' := by
  induction recs generalizing live with
  | nil => cases h; exact numbered
  | cons rec recs ih =>
      rw [List.foldlM_cons] at h
      obtain ⟨mid, first, rest⟩ := Option.bind_eq_some_iff.mp h
      exact ih (follow_numbered numbered first) rest

/-- The log above a higher index. -/
theorem follow_raise (le : index ≤ index') (h : follow index live rec = some live') :
    follow index' (live.drop (index' - index)) rec = some (live'.drop (index' - index)) := by
  cases rec with
  | hardState hs => cases h; rfl
  | entry e =>
      rw [follow] at h ⊢
      split at h
      next below =>
        cases h
        rw [if_pos (by omega), List.drop_nil]
      next above =>
        split at h
        · cases h
        next room =>
          cases h
          have size : (live.take (e.index - index - 1)).length = e.index - index - 1 :=
            List.length_take_of_le (by omega)
          split
          next covered =>
            rw [List.drop_eq_nil_iff.mpr]
            simp only [List.length_append, size, List.length_singleton]
            omega
          next uncovered =>
            have cut : e.index - index' - 1 = e.index - index - 1 - (index' - index) := by omega
            rw [if_neg (by rw [List.length_drop]; omega), List.drop_append_of_le_length (by omega),
              List.drop_take, cut]

theorem foldlM_follow_raise (le : index ≤ index')
    (h : recs.foldlM (follow index) live = some live') :
    recs.foldlM (follow index') (live.drop (index' - index)) =
      some (live'.drop (index' - index)) := by
  induction recs generalizing live with
  | nil => cases h; rfl
  | cons rec recs ih =>
      rw [List.foldlM_cons] at h ⊢
      obtain ⟨mid, first, rest⟩ := Option.bind_eq_some_iff.mp h
      rw [follow_raise le first]
      exact ih rest

/-- Replaying a record the way `Load` does gives the log, unless the log is empty. -/
theorem replay_follow {st : Option (HardState ID) × List Entry} (agrees : live = st.2 ∨ live = [])
    (h : follow index live rec = some live') :
    ∃ st', replay index st rec = .ok st' ∧ (live' = st'.2 ∨ live' = []) := by
  cases rec with
  | hardState hs => cases h; exact ⟨_, rfl, agrees⟩
  | entry e =>
      rw [follow] at h
      rw [replay]
      split at h
      next below =>
        cases h
        rw [if_pos below]
        exact ⟨_, rfl, Or.inr rfl⟩
      next above =>
        split at h
        · cases h
        next room =>
          cases h
          rw [if_neg above]
          rcases agrees with rfl | rfl
          · rw [if_neg room]
            exact ⟨_, rfl, Or.inl rfl⟩
          · -- the log was empty, so the record starts it over
            have first : e.index - index - 1 = 0 := Nat.le_zero.mp (Nat.le_of_not_lt room)
            rw [first, if_neg (Nat.not_lt_zero _)]
            exact ⟨_, rfl, Or.inl (by simp)⟩

theorem foldlM_replay_follow {st : Option (HardState ID) × List Entry}
    (agrees : live = st.2 ∨ live = []) (h : recs.foldlM (follow index) live = some live') :
    ∃ st', recs.foldlM (replay index) st = .ok st' ∧ (live' = st'.2 ∨ live' = []) := by
  induction recs generalizing live st with
  | nil => cases h; exact ⟨st, rfl, agrees⟩
  | cons rec recs ih =>
      rw [List.foldlM_cons] at h ⊢
      obtain ⟨mid, first, rest⟩ := Option.bind_eq_some_iff.mp h
      obtain ⟨st₁, done, agrees₁⟩ := replay_follow agrees first
      rw [done]
      exact ih agrees₁ rest

/-- What a replay ends with: the last hard state, and entries if any record is above the
snapshot. -/
theorem replay_result {st st' : Option (HardState ID) × List Entry}
    (h : recs.foldlM (replay index) st = .ok st') :
    st'.1 = (lastHardState recs).or st.1 ∧
      (st'.2 = [] ↔ st.2 = [] ∧ ∀ e, Rec.entry e ∈ recs → e.index ≤ index) := by
  induction recs generalizing st with
  | nil =>
      cases h
      exact ⟨rfl, by simp⟩
  | cons rec recs ih =>
      rw [List.foldlM_cons] at h
      cases first : replay index st rec with
      | error err => rw [first] at h; cases h
      | ok mid =>
          rw [first] at h
          obtain ⟨hs, entries⟩ := ih h
          rw [hs, entries]
          cases rec with
          | hardState hs' =>
              cases first
              simp [lastHardState]
          | entry e =>
              rw [replay] at first
              split at first
              next below =>
                cases first
                refine ⟨rfl, and_congr_right fun _ => ⟨fun all x hx => ?_, fun all x hx =>
                  all x (List.mem_cons_of_mem _ hx)⟩⟩
                rcases List.mem_cons.mp hx with eq | later
                · cases eq; exact below
                · exact all x later
              next above =>
                split at first
                · cases first
                · cases first
                  refine ⟨rfl, ⟨fun empty => ?_, fun all => ?_⟩⟩
                  · exact absurd empty.1 (by simp)
                  · exact absurd (all.2 e List.mem_cons_self) above

end Records

section Thinning

variable {index index' : Nat} {recs recs' recs₁ recs₁' : List (Rec ID)}

theorem Thinned.refl (recs : List (Rec ID)) : Thinned index recs recs := by
  induction recs with
  | nil => exact .nil
  | cons rec recs ih => exact .keep ih

theorem Thinned.append (h : Thinned index recs recs') (h₁ : Thinned index recs₁ recs₁') :
    Thinned index (recs ++ recs₁) (recs' ++ recs₁') := by
  induction h with
  | nil => exact h₁
  | keep _ ih => exact .keep ih
  | skip below _ ih => exact .skip below ih

theorem Thinned.raise (le : index ≤ index') (h : Thinned index recs recs') :
    Thinned index' recs recs' := by
  induction h with
  | nil => exact .nil
  | keep _ ih => exact .keep ih
  | skip below _ ih => exact .skip (below.trans le) ih

/-- `Load` passes over the records that are left out. -/
theorem replay_thinned (h : Thinned index recs recs') (st : Option (HardState ID) × List Entry) :
    recs.foldlM (replay index) st = recs'.foldlM (replay index) st := by
  induction h generalizing st with
  | nil => rfl
  | @keep rec recs recs' _ ih =>
      rw [List.foldlM_cons, List.foldlM_cons]
      exact bind_congr ih
  | @skip e recs recs' below _ ih =>
      rw [List.foldlM_cons, replay, if_pos below]
      exact ih st

/-- What `Load` reads is the log, if every record that it passes over is left out. -/
theorem follow_thinned {st st' : Option (HardState ID) × List Entry}
    (replayed : recs.foldlM (replay index) st = .ok st') :
    ∃ recs', Thinned index recs recs' ∧ recs'.foldlM (follow index) st.2 = some st'.2 := by
  induction recs generalizing st with
  | nil => cases replayed; exact ⟨[], .nil, rfl⟩
  | cons rec recs ih =>
      rw [List.foldlM_cons] at replayed
      cases first : replay index st rec with
      | error err => rw [first] at replayed; cases replayed
      | ok mid =>
          rw [first] at replayed
          obtain ⟨recs', thinned, followed⟩ := ih replayed
          cases rec with
          | hardState hs =>
              cases first
              exact ⟨.hardState hs :: recs', .keep thinned, followed⟩
          | entry e =>
              rw [replay] at first
              split at first
              next below =>
                cases first
                exact ⟨recs', .skip below thinned, followed⟩
              next above =>
                split at first
                · cases first
                next room =>
                  cases first
                  refine ⟨.entry e :: recs', .keep thinned, ?_⟩
                  rw [List.foldlM_cons, follow, if_neg above, if_neg room]
                  exact followed

end Thinning

section Segments

variable {index index' : Nat} {live live' : List Entry} {segs segs' : List (LogSegment (Rec ID))}

theorem tracks_append :
    Tracks index live (segs ++ segs') live' ↔
      ∃ mid, Tracks index live segs mid ∧ Tracks index mid segs' live' := by
  induction segs generalizing live with
  | nil => exact ⟨fun h => ⟨live, rfl, h⟩, fun ⟨_, eq, h⟩ => (show live = _ from eq) ▸ h⟩
  | cons s segs ih =>
      constructor
      · rintro ⟨tag, recs, mid, thinned, first, rest⟩
        obtain ⟨mid', here, after⟩ := ih.mp rest
        exact ⟨mid', ⟨tag, recs, mid, thinned, first, here⟩, after⟩
      · rintro ⟨mid', ⟨tag, recs, mid, thinned, first, here⟩, after⟩
        exact ⟨tag, recs, mid, thinned, first, ih.mpr ⟨mid', here, after⟩⟩

theorem tracks_records (h : Tracks index live segs live') :
    ∃ recs, Thinned index (segs.flatMap (·.records)) recs ∧
      recs.foldlM (follow index) live = some live' := by
  induction segs generalizing live with
  | nil => exact ⟨[], .nil, congrArg some h⟩
  | cons s segs ih =>
      obtain ⟨-, recs, mid, thinned, first, rest⟩ := h
      obtain ⟨recs', thinned', last⟩ := ih rest
      refine ⟨recs ++ recs', thinned.append thinned', ?_⟩
      rw [List.foldlM_append, first]
      exact last

theorem tracks_raise (le : index ≤ index') (h : Tracks index live segs live') :
    Tracks index' (live.drop (index' - index)) segs (live'.drop (index' - index)) := by
  induction segs generalizing live with
  | nil => exact congrArg (List.drop (index' - index)) h
  | cons s segs ih =>
      obtain ⟨tag, recs, mid, thinned, first, rest⟩ := h
      refine ⟨?_, recs, mid.drop (index' - index), thinned.raise le, foldlM_follow_raise le first,
        ih rest⟩
      rw [List.length_drop]
      omega

theorem tracks_numbered (h : Tracks index [] segs live) : Numbered index live := by
  obtain ⟨recs, -, followed⟩ := tracks_records h
  exact foldlM_follow_numbered (numbered_nil index) followed

/-- One more record in the last segment. -/
theorem tracks_record {s : LogSegment (Rec ID)} {rec : Rec ID} {next : List Entry}
    (h : Tracks index live (segs ++ [s]) live') (followed : follow index live' rec = some next) :
    Tracks index live (segs ++ [{ s with records := s.records ++ [rec] }]) next := by
  obtain ⟨mid, before, tag, recs, last, thinned, here, rfl⟩ := tracks_append.mp h
  refine tracks_append.mpr ⟨mid, before, tag, recs ++ [rec], next, thinned.append (.refl [rec]), ?_, rfl⟩
  rw [List.foldlM_append, here]
  exact (congrArg (· >>= pure) followed).trans (bind_pure _)

/-- A new segment whose tag is above the log. -/
theorem tracks_create {seq tag : Nat} (h : Tracks index live segs live')
    (above : live'.length ≤ tag - (index + 1)) :
    Tracks index live (segs ++ [⟨⟨seq, tag⟩, []⟩]) live' :=
  tracks_append.mpr ⟨live', h, above, [], live', .nil, rfl, rfl⟩

/-- Nothing before a segment whose tag is inside the snapshot matters. -/
theorem tracks_from {s : LogSegment (Rec ID)} (h : Tracks index live (segs ++ s :: segs') live')
    (inside : s.segment.tag ≤ index + 1) : Tracks index [] (s :: segs') live' := by
  obtain ⟨mid, -, tag, rest⟩ := tracks_append.mp h
  have empty : mid = [] := List.eq_nil_of_length_eq_zero (by omega)
  subst empty
  exact ⟨tag, rest⟩

/-- What `Load` reads is the log, if the tags allow that. -/
theorem tracks_tagged {st st' : Option (HardState ID) × List Entry}
    (replayed : (segs.flatMap (·.records)).foldlM (replay index) st = .ok st')
    (tagged : ∀ before s after, segs = before ++ s :: after → ∀ mid,
      (before.flatMap (·.records)).foldlM (replay index) st = .ok mid →
        mid.2.length ≤ s.segment.tag - (index + 1)) :
    Tracks index st.2 segs st'.2 := by
  induction segs generalizing st with
  | nil => cases replayed; rfl
  | cons s segs ih =>
      rw [List.flatMap_cons, List.foldlM_append] at replayed
      cases first : s.records.foldlM (replay index) st with
      | error err => rw [first] at replayed; cases replayed
      | ok mid =>
          rw [first] at replayed
          obtain ⟨recs, thinned, followed⟩ := follow_thinned first
          refine ⟨tagged [] s segs rfl st rfl, recs, mid.2, thinned, followed, ih replayed ?_⟩
          intro before s' after split mid' read
          refine tagged (s :: before) s' after (congrArg (s :: ·) split) mid' ?_
          rw [List.flatMap_cons, List.foldlM_append, first]
          exact read

end Segments

/-- The segments that are read from `minSeq` on. -/
def Disk.kept (d : Disk ID) (minSeq : Nat) : List (LogSegment (Rec ID)) :=
  d.wal.segments.filter (minSeq ≤ ·.segment.seq)

section Kept

variable {minSeq : Nat}

theorem kept_split (known : minSeq ≤ d.wal.active.segment.seq) :
    d.kept minSeq = d.wal.closed.filter (minSeq ≤ ·.segment.seq) ++ [d.wal.active] := by
  rw [Disk.kept, Journal.segments, List.filter_append, List.filter_cons_of_pos (by simpa using known),
    List.filter_nil]

theorem kept_append (known : minSeq ≤ d.wal.active.segment.seq) (rec : Rec ID) :
    (d.apply (.append rec)).kept minSeq = d.wal.closed.filter (minSeq ≤ ·.segment.seq) ++
      [{ d.wal.active with records := d.wal.active.records ++ [rec] }] :=
  kept_split (d := d.apply (.append rec)) known

theorem kept_create (known : minSeq ≤ d.wal.active.segment.seq + 1) (tag : Nat) :
    (d.apply (.create tag)).kept minSeq =
      d.kept minSeq ++ [⟨⟨d.wal.active.segment.seq + 1, tag⟩, []⟩] :=
  kept_split (d := d.apply (.create tag)) known

/-- A collection loses nothing of what is read from `minSeq` on that is still needed. -/
theorem Collected.kept_cases {m : StoredMeta} (h : Collected m d d') (ordered : d.wal.Ordered)
    (le : m.minWalSegment ≤ minSeq) :
    d'.kept minSeq = d.kept minSeq ∨
      ∃ before s after, d.kept minSeq = before ++ s :: after ∧ d'.kept minSeq = s :: after ∧
        s.segment.tag ≤ m.lastIncludedIndex + 1 := by
  obtain ⟨old, rest, split, wal, boundary⟩ := h.wal
  have all : d.wal.segments = old ++ d'.wal.segments := by
    rw [wal, Journal.segments, Journal.segments, split, List.append_assoc]
  have kept : d.kept minSeq = old.filter (minSeq ≤ ·.segment.seq) ++ d'.kept minSeq := by
    rw [Disk.kept, Disk.kept, all, List.filter_append]
  by_cases stale : ∀ s ∈ old, s.segment.seq < minSeq
  · left
    rw [kept, List.filter_eq_nil_iff.mpr fun s hs => by simpa using stale s hs, List.nil_append]
  · right
    have inside : ∀ s ∈ d'.wal.segments.head?, s.segment.tag ≤ m.lastIncludedIndex + 1 :=
      boundary.resolve_left fun invalid => stale fun s hs => (invalid s hs).trans_le le
    push Not at stale
    obtain ⟨x, hx, read⟩ := stale
    cases left : d'.wal.segments with
    | nil => simp [Journal.segments] at left
    | cons s more =>
        rw [Journal.Ordered, all, left] at ordered
        have later := (List.pairwise_append.mp ordered).2.2 x hx s List.mem_cons_self
        have first : d'.kept minSeq = s :: more.filter (minSeq ≤ ·.segment.seq) := by
          rw [Disk.kept, left, List.filter_cons_of_pos (by simp only [decide_eq_true_eq]; omega)]
        rw [left] at inside
        exact ⟨_, s, _, kept.trans (by rw [first]), first, inside s rfl⟩

end Kept

/-- The index that the newest snapshot reaches to. -/
def snapIndex (cur : Option SnapFile) : Nat := (cur.map (·.index)).getD 0

/-- The first segment that is valid beside the newest snapshot. -/
def minSegment (cur : Option SnapFile) : Nat := (cur.map (·.snapMeta.minWalSegment)).getD 0

section Load

variable {cur : Option SnapFile} {live : List Entry}

/-- What `Load` returns for a snapshot, a hard state and entries, and what it remembers. -/
def loadedWith (cur : Option SnapFile) (st : Option (HardState ID) × List Entry) :
    Loaded ID × Mem ID :=
  ({ hardState := st.1
     snapMeta := cur.map (·.snapMeta)
     snapshotData := (cur.map (·.data)).getD []
     entries := st.2 },
   { hs := st.1, snapMeta := cur.map (·.snapMeta), lastIndex := snapIndex cur + st.2.length })

theorem load_eq (newest : Newest d.snaps cur) :
    d.load = ((d.wal.records (minSegment cur)).foldlM (replay (snapIndex cur)) (none, [])).map
      (loadedWith cur) := by
  rw [Disk.load, newest_eq newest]
  rfl

theorem load_ok (newest : Newest d.snaps cur) {loaded : Loaded ID} {mem : Mem ID}
    (read : d.load = .ok (loaded, mem)) :
    ∃ st, (d.wal.records (minSegment cur)).foldlM (replay (snapIndex cur)) (none, []) = .ok st ∧
      (loaded, mem) = loadedWith cur st := by
  rw [load_eq newest] at read
  cases replayed : (d.wal.records (minSegment cur)).foldlM (replay (snapIndex cur)) (none, []) with
  | error err => rw [replayed] at read; cases read
  | ok st =>
      rw [replayed] at read
      exact ⟨st, rfl, (Except.ok.inj read).symm⟩

/-- `Load` succeeds on a log that can be followed, and returns it unless it is empty. -/
theorem load_tracks (newest : Newest d.snaps cur)
    (tracks : Tracks (snapIndex cur) [] (d.kept (minSegment cur)) live) :
    ∃ entries, d.load =
        .ok (loadedWith cur (lastHardState (d.wal.records (minSegment cur)), entries)) ∧
      (live = entries ∨ live = []) ∧
      (entries = [] ↔
        ∀ e, Rec.entry e ∈ d.wal.records (minSegment cur) → e.index ≤ snapIndex cur) := by
  let start : Option (HardState ID) × List Entry := (none, [])
  have begun : [] = start.2 ∨ ([] : List Entry) = [] := Or.inl rfl
  obtain ⟨recs, thinned, followed⟩ := tracks_records tracks
  obtain ⟨st, replayed, agrees⟩ := foldlM_replay_follow begun followed
  rw [← replay_thinned thinned] at replayed
  obtain ⟨hs, empty⟩ := replay_result replayed
  refine ⟨st.2, ?_, agrees, empty.trans (and_iff_right rfl)⟩
  have loaded : d.wal.records (minSegment cur) =
      (d.kept (minSegment cur)).flatMap (·.records) := rfl
  rw [load_eq newest, loaded, replayed, Except.map]
  rw [Option.or_none] at hs
  rw [← hs]

end Load

end EdgeKV.RaftStore
