import EdgeKV.Bytes

/-!
One segment file of the write-ahead log: the framing of its records, and the loop that
reads them back. The checksum is an arbitrary function of type and data.
-/
namespace EdgeKV.Wal

structure Record where
  type : UInt8
  data : Bytes
  deriving DecidableEq, Repr

def headerSize : Nat := 9

/-- Guards against reading a garbage length from a torn header. -/
def maxRecordSize : Nat := 256 <<< 20

/-- One byte of CRC-32C, bit by bit over the reversed Castagnoli polynomial. -/
def crcByte (crc : UInt32) (b : UInt8) : UInt32 :=
  (List.range 8).foldl (fun c _ => if c &&& 1 = 1 then (c >>> 1) ^^^ 0x82f63b78 else c >>> 1)
    (crc ^^^ b.toUInt32)

/-- `crc32.Update` with the Castagnoli table. -/
def crcUpdate (crc : UInt32) (data : Bytes) : UInt32 := ~~~ (data.foldl crcByte (~~~ crc))

-- the check value of CRC-32C, over the digits from 1 to 9
example : crcUpdate 0 [49, 50, 51, 52, 53, 54, 55, 56, 57] = 0xe3069283 := by decide +kernel

/-- The checksum that the log is run with. -/
def castagnoli (type : UInt8) (data : Bytes) : UInt32 := crcUpdate (crcUpdate 0 [type]) data

/-- What is stored of a record: its header, with the length that follows from the data. -/
structure Frame where
  sum : UInt32
  type : UInt8
  data : Bytes
  deriving DecidableEq, Repr

def Frame.bytes (f : Frame) : Bytes :=
  littleEndian 4 f.data.length ++ (littleEndian 4 f.sum.toNat ++ f.type :: f.data)

/-- One round of the loop of `readSegment`. -/
inductive Head
  | clean
  | torn
  | record (r : Record) (rest : Bytes)
  deriving DecidableEq, Repr

/-- How `readSegment` ends: `torn` is `errTorn`, `failed` an error of the callback. -/
inductive ReadError (ε : Type)
  | torn
  | failed (err : ε)
  deriving DecidableEq, Repr

/-- The state of the callback, the offset past the last valid record, and the error. -/
structure Scan (σ ε : Type) where
  state : σ
  offset : Nat
  error : Option (ReadError ε)

section Reading

variable (checksum : UInt8 → Bytes → UInt32) {σ ε : Type}

def Record.frame (r : Record) : Frame :=
  { sum := checksum r.type r.data, type := r.type, data := r.data }

/-- The buffer that `appendLocked` fills. -/
def encode (recs : List Record) : Bytes := recs.flatMap fun r => (r.frame checksum).bytes

def readRecord (b : Bytes) : Head :=
  if b = [] then .clean
  else if b.length < headerSize then .torn
  else
    let length := ofLittleEndian (b.take 4)
    let sum := ofLittleEndian ((b.drop 4).take 4)
    let type := (b.drop 8).headD 0
    let rest := b.drop headerSize
    if maxRecordSize < length then .torn
    else if rest.length < length then .torn
    else if (checksum type (rest.take length)).toNat ≠ sum then .torn
    else .record { type, data := rest.take length } (rest.drop length)

/-- The loop of `readSegment`; every round but the last consumes a header at least, so
the length of the input is fuel enough. -/
def readLoop (fn : σ → Record → Except ε σ) : Nat → σ → Nat → Bytes → Scan σ ε
  | 0, st, offset, _ => ⟨st, offset, some .torn⟩
  | fuel + 1, st, offset, b =>
      match readRecord checksum b with
      | .clean => ⟨st, offset, none⟩
      | .torn => ⟨st, offset, some .torn⟩
      | .record r rest =>
          match fn st r with
          | .error err => ⟨st, offset, some (.failed err)⟩
          | .ok st' => readLoop fn fuel st' (offset + headerSize + r.data.length) rest

def readSegment (fn : σ → Record → Except ε σ) (st : σ) (b : Bytes) : Scan σ ε :=
  readLoop checksum fn (b.length + 1) st 0 b

/-- A callback that only keeps the records. -/
def collect (recs : List Record) (r : Record) : Except Empty (List Record) := .ok (recs ++ [r])

/-- A frame that is read back: its length is accepted and its checksum holds. -/
def Frame.Valid (f : Frame) : Prop :=
  f.data.length ≤ maxRecordSize ∧ f.sum = checksum f.type f.data

instance (f : Frame) : Decidable (f.Valid checksum) := inferInstanceAs (Decidable (_ ∧ _))

end Reading

theorem length_bytes (f : Frame) : f.bytes.length = headerSize + f.data.length := by
  simp [Frame.bytes, headerSize]
  omega

section Heads

variable {checksum : UInt8 → Bytes → UInt32}

theorem readRecord_nil : readRecord checksum [] = .clean := rfl

/-- A stored frame is read as its record, or found torn where it starts. -/
theorem readRecord_frame (f : Frame) (short : f.data.length < 256 ^ 4) (rest : Bytes) :
    readRecord checksum (f.bytes ++ rest) =
      if f.Valid checksum then .record ⟨f.type, f.data⟩ rest else .torn := by
  have size : (f.bytes ++ rest).length = headerSize + f.data.length + rest.length := by
    rw [List.length_append, length_bytes]
  have length : ofLittleEndian ((f.bytes ++ rest).take 4) = f.data.length := by
    rw [Frame.bytes, List.append_assoc, List.take_left' (length_littleEndian 4 _),
      ofLittleEndian_of_lt short]
  have past : (f.bytes ++ rest).drop 4 =
      littleEndian 4 f.sum.toNat ++ (f.type :: f.data ++ rest) := by
    rw [Frame.bytes, List.append_assoc, List.drop_left' (length_littleEndian 4 _), List.append_assoc]
  have sum : ofLittleEndian (((f.bytes ++ rest).drop 4).take 4) = f.sum.toNat := by
    rw [past, List.take_left' (length_littleEndian 4 _), ofLittleEndian_of_lt f.sum.toNat_lt]
  have body : (f.bytes ++ rest).drop 8 = f.type :: f.data ++ rest := by
    rw [show 8 = 4 + 4 from rfl, ← List.drop_drop, past, List.drop_left' (length_littleEndian 4 _)]
  have data : (f.bytes ++ rest).drop headerSize = f.data ++ rest := by
    rw [headerSize, show 9 = 8 + 1 from rfl, ← List.drop_drop, body]
    rfl
  have some : f.bytes ++ rest ≠ [] := List.ne_nil_of_length_pos (by rw [size, headerSize]; omega)
  rw [readRecord, if_neg some, if_neg (by omega)]
  simp only [length, sum, body, data, List.cons_append, List.headD_cons, List.take_left',
    List.drop_left', List.length_append]
  by_cases fits : f.data.length ≤ maxRecordSize
  · rw [if_neg (by omega), if_neg (by omega)]
    by_cases same : f.sum = checksum f.type f.data
    · rw [if_neg (by rw [same]; simp), if_pos ⟨fits, same⟩]
    · rw [if_pos (fun eq => same (UInt32.toNat_inj.mp eq.symm)), if_neg (fun valid => same valid.2)]
  · rw [if_pos (by omega), if_neg (fun valid => fits valid.1)]

/-- A frame that was not written to its end is torn. -/
theorem readRecord_begun {f : Frame} (short : f.data.length < 256 ^ 4) {c : Bytes}
    (begun : c <+: f.bytes) (unfinished : c.length < f.bytes.length) (some : c ≠ []) :
    readRecord checksum c = .torn := by
  rw [readRecord, if_neg some]
  by_cases header : c.length < headerSize
  · rw [if_pos header]
  · have length : ofLittleEndian (c.take 4) = f.data.length := by
      have four : 4 ≤ c.length := by simp only [headerSize] at header; omega
      rw [List.prefix_iff_eq_take.mp begun, List.take_take, Nat.min_eq_left four, Frame.bytes,
        List.take_left' (length_littleEndian 4 _), ofLittleEndian_of_lt short]
    rw [length_bytes] at unfinished
    rw [if_neg header]
    simp only [length, List.length_drop]
    split
    · rfl
    · rw [if_pos (by omega)]

end Heads

/-- The bytes of frames one after the other. -/
def store (frames : List Frame) : Bytes := frames.flatMap Frame.bytes

def Frame.record (f : Frame) : Record := ⟨f.type, f.data⟩

section Loop

variable {checksum : UInt8 → Bytes → UInt32} {σ ε : Type} {fn : σ → Record → Except ε σ}

theorem encode_store (recs : List Record) :
    encode checksum recs = store (recs.map (·.frame checksum)) := by
  rw [encode, store, List.flatMap_map]

@[simp] theorem encode_append (recs recs' : List Record) :
    encode checksum (recs ++ recs') = encode checksum recs ++ encode checksum recs' := by
  simp [encode]

theorem length_le_store (frames : List Frame) : frames.length ≤ (store frames).length := by
  induction frames with
  | nil => simp
  | cons f frames ih =>
      simp only [store, List.flatMap_cons, List.length_append, length_bytes, headerSize,
        List.length_cons] at ih ⊢
      omega

theorem valid_short {f : Frame} (valid : f.Valid checksum) : f.data.length < 256 ^ 4 :=
  Nat.lt_of_le_of_lt valid.1 (by decide)

/-- Valid frames are read one by one. -/
theorem readLoop_valid {frames : List Frame} (valid : ∀ f ∈ frames, f.Valid checksum) {st st' : σ}
    (folded : (frames.map Frame.record).foldlM fn st = .ok st') (fuel offset : Nat) (rest : Bytes) :
    readLoop checksum fn (fuel + frames.length) st offset (store frames ++ rest) =
      readLoop checksum fn fuel st' (offset + (store frames).length) rest := by
  induction frames generalizing st offset with
  | nil => cases folded; rfl
  | cons f frames ih =>
      have first := valid f List.mem_cons_self
      have others : ∀ g ∈ frames, g.Valid checksum := fun g hg => valid g (List.mem_cons_of_mem f hg)
      rw [List.map_cons, List.foldlM_cons] at folded
      cases called : fn st f.record with
      | error err => rw [called] at folded; cases folded
      | ok mid =>
          rw [called] at folded
          have size : (store (f :: frames)).length =
              headerSize + f.data.length + (store frames).length := by
            simp [store, length_bytes]
          have split : store (f :: frames) ++ rest = f.bytes ++ (store frames ++ rest) := by
            simp [store]
          rw [split, List.length_cons, ← Nat.add_assoc, readLoop,
            readRecord_frame f (valid_short first), if_pos first]
          change (match fn st f.record with
            | .error err => _
            | .ok st' => _) = _
          rw [called, size, ← Nat.add_assoc, ← Nat.add_assoc]
          exact ih others folded _

/-- Reading stops cleanly at the end of the last valid frame, or finds the rest torn. -/
theorem readSegment_valid {frames : List Frame} (valid : ∀ f ∈ frames, f.Valid checksum) {st st' : σ}
    (folded : (frames.map Frame.record).foldlM fn st = .ok st') {rest : Bytes} :
    (rest = [] → readSegment checksum fn st (store frames ++ rest) =
      ⟨st', (store frames).length, none⟩) ∧
    (readRecord checksum rest = .torn → readSegment checksum fn st (store frames ++ rest) =
      ⟨st', (store frames).length, some .torn⟩) := by
  obtain ⟨fuel, enough⟩ : ∃ fuel, (store frames ++ rest).length + 1 = fuel + 1 + frames.length := by
    refine ⟨(store frames ++ rest).length - frames.length, ?_⟩
    have := length_le_store frames
    rw [List.length_append]
    omega
  rw [readSegment, enough, readLoop_valid valid folded, Nat.zero_add, readLoop]
  constructor
  · intro clean
    rw [clean, readRecord_nil]
  · intro torn
    rw [torn]

/-- The parts of a frame, put together again. -/
theorem frame_parts {b rest : Bytes} {f : Frame} (header : headerSize ≤ b.length)
    (length : f.data.length = ofLittleEndian (b.take 4))
    (sum : f.sum.toNat = ofLittleEndian ((b.drop 4).take 4))
    (type : f.type = (b.drop 8).headD 0) (data : f.data ++ rest = b.drop headerSize) :
    f.bytes ++ rest = b := by
  rw [headerSize] at header data
  have first : littleEndian 4 f.data.length = b.take 4 := by
    have whole := littleEndian_ofLittleEndian (b.take 4)
    rwa [List.length_take_of_le (by omega), ← length] at whole
  have second : littleEndian 4 f.sum.toNat = (b.drop 4).take 4 := by
    have whole := littleEndian_ofLittleEndian ((b.drop 4).take 4)
    rwa [List.length_take_of_le (by rw [List.length_drop]; omega), ← sum] at whole
  have third : f.type :: (f.data ++ rest) = b.drop 8 := by
    have past : b.drop 9 = (b.drop 8).drop 1 := by rw [List.drop_drop]
    rw [type, data, past]
    cases left : b.drop 8 with
    | nil =>
        have short := List.drop_eq_nil_iff.mp left
        omega
    | cons x more => rfl
  calc f.bytes ++ rest = b.take 4 ++ ((b.drop 4).take 4 ++ b.drop 8) := by
        rw [Frame.bytes, first, second, ← third]
        simp
    _ = b.take 4 ++ ((b.drop 4).take 4 ++ (b.drop 4).drop 4) := by rw [List.drop_drop]
    _ = b := by rw [List.take_append_drop, List.take_append_drop]

/-- What is read as a record is a valid frame. -/
theorem readRecord_record {b rest : Bytes} {r : Record}
    (read : readRecord checksum b = .record r rest) :
    ∃ f : Frame, f.Valid checksum ∧ b = f.bytes ++ rest ∧ f.record = r := by
  rw [readRecord] at read
  split at read
  · cases read
  · split at read
    · cases read
    next header =>
      dsimp only at read
      split at read
      · cases read
      next fits =>
        split at read
        · cases read
        next whole =>
          split at read
          · cases read
          next sum =>
            obtain ⟨rfl, rfl⟩ := Head.record.inj read
            have length := List.length_take_of_le (Nat.not_lt.mp whole)
            refine ⟨⟨checksum _ _, _, _⟩, ⟨?_, rfl⟩, ?_, rfl⟩
            · rw [length]
              exact Nat.not_lt.mp fits
            · exact (frame_parts (Nat.not_lt.mp header) length (not_not.mp sum) rfl
                (List.take_append_drop _ _)).symm

theorem readRecord_clean {b : Bytes} (clean : readRecord checksum b = .clean) : b = [] := by
  rw [readRecord] at clean
  split at clean
  · assumption
  · dsimp only at clean
    split at clean
    · cases clean
    · split at clean
      · cases clean
      · split at clean
        · cases clean
        · split at clean <;> cases clean

/-- Any bytes are valid frames, and then nothing or something torn. -/
theorem frames_split (checksum : UInt8 → Bytes → UInt32) (b : Bytes) :
    ∃ frames tail, (∀ f ∈ frames, Frame.Valid checksum f) ∧ b = store frames ++ tail ∧
      (tail = [] ∨ readRecord checksum tail = .torn) := by
  induction size : b.length using Nat.strongRecOn generalizing b with
  | ind n ih =>
      cases read : readRecord checksum b with
      | clean => exact ⟨[], [], by simp, by simp [readRecord_clean read, store], Or.inl rfl⟩
      | torn => exact ⟨[], b, by simp, rfl, Or.inr read⟩
      | record r rest =>
          obtain ⟨f, valid, rfl, -⟩ := readRecord_record read
          have shorter : rest.length < n := by
            rw [← size, List.length_append, length_bytes, headerSize]
            omega
          obtain ⟨frames, tail, others, rfl, torn⟩ := ih rest.length shorter rest rfl
          refine ⟨f :: frames, tail, List.forall_mem_cons.mpr ⟨valid, others⟩, ?_, torn⟩
          simp [store]

theorem frame_record {f : Frame} (valid : f.Valid checksum) : f.record.frame checksum = f := by
  rw [Record.frame, Frame.record, ← valid.2]

theorem encode_records {frames : List Frame} (valid : ∀ f ∈ frames, f.Valid checksum) :
    encode checksum (frames.map Frame.record) = store frames := by
  rw [encode_store, List.map_map]
  congr 1
  refine (List.map_congr_left fun f member => ?_).trans (List.map_id frames)
  exact frame_record (valid f member)

/-- Nothing torn begins with a record. -/
theorem torn_start {tail : Bytes} (torn : readRecord checksum tail = .torn) {r : Record}
    (short : r.data.length ≤ maxRecordSize) : ¬ encode checksum [r] <+: tail := by
  rintro ⟨rest, rfl⟩
  have valid : (r.frame checksum).Valid checksum := ⟨short, rfl⟩
  have single : encode checksum [r] = (r.frame checksum).bytes := List.flatMap_singleton ..
  rw [single, readRecord_frame _ (valid_short valid), if_pos valid] at torn
  cases torn

theorem foldlM_ok {g : σ → Record → σ} (recs : List Record) (st : σ) :
    recs.foldlM (fun st r => (.ok (g st r) : Except ε σ)) st = .ok (recs.foldl g st) := by
  induction recs generalizing st with
  | nil => rfl
  | cons r recs ih => exact ih (g st r)

end Loop

/-- Reading a segment finds the longest run of whole records that it begins with. -/
theorem readSegment_longest (checksum : UInt8 → Bytes → UInt32) (b : Bytes) :
    ∃ (recs : List Record) (offset : Nat) (torn : Bool),
      (∀ (σ ε : Type) (g : σ → Record → σ) (st : σ),
        readSegment checksum (fun st r => (.ok (g st r) : Except ε σ)) st b =
          ⟨recs.foldl g st, offset, if torn then some .torn else none⟩) ∧
      offset ≤ b.length ∧ encode checksum recs = b.take offset ∧
      (torn = false ↔ offset = b.length) ∧
      (torn = true → ∀ r : Record, r.data.length ≤ maxRecordSize →
        ¬ encode checksum [r] <+: b.drop offset) := by
  obtain ⟨frames, tail, valid, rfl, ends⟩ := frames_split checksum b
  have kept : encode checksum (frames.map Frame.record) =
      (store frames ++ tail).take (store frames).length := by
    rw [encode_records valid, List.take_left]
  rcases ends with rfl | torn
  · refine ⟨frames.map Frame.record, (store frames).length, false, ?_, by simp, kept, by simp, nofun⟩
    intro σ ε g st
    exact (readSegment_valid valid (foldlM_ok _ st)).1 rfl
  · have some : tail ≠ [] := by
      rintro rfl
      cases torn
    refine ⟨frames.map Frame.record, (store frames).length, true, ?_, by simp, kept, ?_, ?_⟩
    · intro σ ε g st
      exact (readSegment_valid valid (foldlM_ok _ st)).2 torn
    · simpa using some
    · intro _ r short
      rw [List.drop_left]
      exact torn_start torn short

end EdgeKV.Wal
