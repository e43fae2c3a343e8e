import EdgeKV.RaftStore.Store
import EdgeKV.Slices
import EdgeKV.Store.Store
import EdgeKV.Url

/-!
The bytes of a snapshot file: a magic text, the metadata and the data with their lengths, and a
checksum of all that. The reader works on whatever bytes the file has, with every slice checked.
-/
namespace EdgeKV.RaftStore

open Slices

def snapMagic : Bytes := Url.utf8 "EKVSNAP1"

/-- What the checksum is over. -/
def snapshotBody (metaBytes data : Bytes) : Bytes :=
  snapMagic ++ (littleEndian 4 metaBytes.length ++
    (metaBytes ++ (littleEndian 8 data.length ++ data)))

section Codec

variable (crc : Bytes → UInt32) (codec : Codec StoredMeta)

def snapshotBytes (metaBytes data : Bytes) : Bytes :=
  snapshotBody metaBytes data ++ littleEndian 4 (crc (snapshotBody metaBytes data)).toNat

/-- The buffer that `writeSnapshotFile` fills. -/
def writeSnapshotFile (f : SnapFile) : Bytes := snapshotBytes crc (codec.marshal f.snapMeta) f.data

/-- The part of `readSnapshotFile` past the checks of magic and checksum. -/
def readSnapshotBody (p : Bytes) : Except Fault SnapFile := do
  let metaLen ← readUint 4 p
  let p ← sliceFrom p 4
  ensure (metaLen + 8 ≤ p.length)
  let snapMeta ← accept (codec.unmarshal (← sliceTo p metaLen))
  let p ← sliceFrom p metaLen
  let dataLen ← readUint 8 p
  let data ← sliceFrom p 8
  ensure (data.length = dataLen)
  return { snapMeta, data }

def readSnapshotFile (buf : Bytes) : Except Fault SnapFile := do
  ensure (snapMagic.length + 4 + 8 + 4 ≤ buf.length)
  ensure ((← sliceTo buf snapMagic.length) = snapMagic)
  let body ← sliceTo buf (buf.length - 4)
  let sum ← readUint 4 (← sliceFrom buf (buf.length - 4))
  ensure ((crc body).toNat = sum)
  readSnapshotBody codec (← sliceFrom body snapMagic.length)

end Codec

variable {crc : Bytes → UInt32} {codec : Codec StoredMeta}

/-- The part past the magic, on bytes that are long enough. -/
theorem readSnapshotBody_parts (len metaBytes dataLen data : Bytes) (four : len.length = 4)
    (eight : dataLen.length = 8) (length : ofLittleEndian len = metaBytes.length) :
    readSnapshotBody codec (len ++ (metaBytes ++ (dataLen ++ data))) =
      (accept (codec.unmarshal metaBytes)).bind fun snapMeta =>
        (ensure (data.length = ofLittleEndian dataLen)).map fun _ => { snapMeta, data } := by
  have number : readUint 4 (len ++ (metaBytes ++ (dataLen ++ data))) = .ok metaBytes.length := by
    rw [← four, readUint_append, length]
  have past : sliceFrom (len ++ (metaBytes ++ (dataLen ++ data))) 4 =
      .ok (metaBytes ++ (dataLen ++ data)) := by
    rw [← four, sliceFrom_append]
  have rest : readUint 8 (dataLen ++ data) = .ok (ofLittleEndian dataLen) := by
    rw [← eight, readUint_append]
  have last : sliceFrom (dataLen ++ data) 8 = .ok data := by rw [← eight, sliceFrom_append]
  have fits : metaBytes.length + 8 ≤ (metaBytes ++ (dataLen ++ data)).length := by
    simp only [List.length_append, eight]
    omega
  simp only [readSnapshotBody, bind, Except.bind, number, past, ensure_pos fits, sliceTo_append,
    sliceFrom_append, rest, last]
  cases accept (codec.unmarshal metaBytes) with
  | error fault => rfl
  | ok snapMeta => cases ensure (data.length = ofLittleEndian dataLen) <;> rfl

/-- The checks of magic and checksum, on bytes that are long enough. -/
theorem readSnapshotFile_parts (head p sum : Bytes) (magic : head.length = snapMagic.length)
    (four : sum.length = 4) (long : 4 + 8 ≤ p.length) :
    readSnapshotFile crc codec (head ++ p ++ sum) =
      (ensure (head = snapMagic)).bind fun _ =>
        (ensure ((crc (head ++ p)).toNat = ofLittleEndian sum)).bind fun _ =>
          readSnapshotBody codec p := by
  have enough : snapMagic.length + 4 + 8 + 4 ≤ (head ++ p ++ sum).length := by
    simp only [List.length_append, magic, four]
    omega
  have size : (head ++ p ++ sum).length - 4 = (head ++ p).length := by
    rw [List.length_append, four, Nat.add_sub_cancel]
  have start : sliceTo (head ++ p ++ sum) snapMagic.length = .ok head := by
    rw [← magic, List.append_assoc, sliceTo_append]
  have last : readUint 4 sum = .ok (ofLittleEndian sum) := by
    have whole := readUint_append sum []
    rwa [four, List.append_nil] at whole
  have past : sliceFrom (head ++ p) snapMagic.length = .ok p := by rw [← magic, sliceFrom_append]
  simp only [readSnapshotFile, bind, Except.bind, ensure_pos enough, size, start, sliceTo_append,
    sliceFrom_append, last, past]

/-- The bytes are those of a snapshot file with this content. -/
def IsSnapshot (crc : Bytes → UInt32) (codec : Codec StoredMeta) (b : Bytes) (f : SnapFile) : Prop :=
  ∃ metaBytes, metaBytes.length < 2 ^ 32 ∧ f.data.length < 2 ^ 64 ∧
    codec.unmarshal metaBytes = some f.snapMeta ∧ b = snapshotBytes crc metaBytes f.data

theorem readSnapshotFile_snapshot {b : Bytes} {f : SnapFile} (h : IsSnapshot crc codec b f) :
    readSnapshotFile crc codec b = .ok f := by
  obtain ⟨metaBytes, short, fits, decoded, rfl⟩ := h
  have number : ofLittleEndian (littleEndian 4 metaBytes.length) = metaBytes.length :=
    ofLittleEndian_of_lt short
  have size : f.data.length = ofLittleEndian (littleEndian 8 f.data.length) :=
    (ofLittleEndian_of_lt fits).symm
  have sum (x : UInt32) : x.toNat = ofLittleEndian (littleEndian 4 x.toNat) :=
    (ofLittleEndian_of_lt x.toNat_lt).symm
  have long : 4 + 8 ≤ (littleEndian 4 metaBytes.length ++
      (metaBytes ++ (littleEndian 8 f.data.length ++ f.data))).length := by
    simp only [List.length_append, length_littleEndian]
    omega
  rw [snapshotBytes, snapshotBody,
    readSnapshotFile_parts _ _ _ rfl (length_littleEndian 4 _) long, ensure_pos rfl,
    ensure_pos (sum _)]
  simp only [Except.bind]
  rw [readSnapshotBody_parts _ _ _ _ (length_littleEndian 4 _) (length_littleEndian 8 _) number,
    decoded, ensure_pos size]
  rfl

/-- A number in a field of a fixed width. -/
theorem field_number {k : Nat} {b : Bytes} (h : b.length = k) :
    b = littleEndian k (ofLittleEndian b) ∧ ofLittleEndian b < 256 ^ k := by
  have whole := littleEndian_ofLittleEndian b
  rw [h] at whole
  refine ⟨whole.symm, ?_⟩
  have value := ofLittleEndian_littleEndian k (ofLittleEndian b)
  rw [whole] at value
  rw [value]
  exact Nat.mod_lt _ (Nat.pow_pos (by decide))

theorem readSnapshotBody_cases (codec : Codec StoredMeta) {p : Bytes} (long : 4 + 8 ≤ p.length) :
    readSnapshotBody codec p = .error .rejected ∨
      ∃ (f : SnapFile) (metaBytes : Bytes), metaBytes.length < 2 ^ 32 ∧ f.data.length < 2 ^ 64 ∧
        codec.unmarshal metaBytes = some f.snapMeta ∧
        p = littleEndian 4 metaBytes.length ++
          (metaBytes ++ (littleEndian 8 f.data.length ++ f.data)) := by
  obtain ⟨len, rest, rfl, four⟩ := exists_append (show 4 ≤ p.length by omega)
  obtain ⟨field, bound⟩ := field_number four
  by_cases fits : ofLittleEndian len + 8 ≤ rest.length
  · obtain ⟨metaBytes, more, rfl, length⟩ := exists_append (show ofLittleEndian len ≤ rest.length by omega)
    rw [List.length_append, length] at fits
    obtain ⟨dataLen, data, rfl, eight⟩ := exists_append (show 8 ≤ more.length by omega)
    rw [readSnapshotBody_parts _ _ _ _ four eight length.symm]
    cases decoded : codec.unmarshal metaBytes with
    | none => exact Or.inl rfl
    | some snapMeta =>
        by_cases whole : data.length = ofLittleEndian dataLen
        · obtain ⟨field', bound'⟩ := field_number eight
          refine Or.inr ⟨⟨snapMeta, data⟩, metaBytes, ?_, ?_, decoded, ?_⟩
          · rw [length]
            exact bound
          · rw [whole]
            exact bound'
          · rw [length, whole, ← field, ← field']
        · rw [ensure_neg whole]
          exact Or.inl rfl
  · left
    have number : readUint 4 (len ++ rest) = .ok (ofLittleEndian len) := by
      rw [← four, readUint_append]
    have past : sliceFrom (len ++ rest) 4 = .ok rest := by rw [← four, sliceFrom_append]
    simp only [readSnapshotBody, bind, Except.bind, number, past, ensure_neg fits]

/-- The reader rejects the bytes, or they are a snapshot file. -/
theorem readSnapshotFile_cases (crc : Bytes → UInt32) (codec : Codec StoredMeta) (b : Bytes) :
    readSnapshotFile crc codec b = .error .rejected ∨ ∃ f, IsSnapshot crc codec b f := by
  by_cases enough : snapMagic.length + 4 + 8 + 4 ≤ b.length
  · obtain ⟨body, sum, rfl, four⟩ := exists_append_end (show 4 ≤ b.length by omega)
    rw [List.length_append, four] at enough
    obtain ⟨head, p, rfl, magic⟩ := exists_append (show snapMagic.length ≤ body.length by omega)
    rw [List.length_append, magic] at enough
    rw [readSnapshotFile_parts head p sum magic four (by omega)]
    by_cases same : head = snapMagic
    · rw [ensure_pos same]
      by_cases valid : (crc (head ++ p)).toNat = ofLittleEndian sum
      · rw [ensure_pos valid]
        simp only [Except.bind]
        refine (readSnapshotBody_cases codec (show 4 + 8 ≤ p.length by omega)).imp_right ?_
        rintro ⟨f, metaBytes, short, fits, decoded, parts⟩
        have bytes : head ++ p = snapshotBody metaBytes f.data := by rw [same, parts, snapshotBody]
        refine ⟨f, metaBytes, short, fits, decoded, ?_⟩
        rw [snapshotBytes, ← bytes, valid, ← (field_number four).1]
      · rw [ensure_neg valid]
        exact Or.inl rfl
    · rw [ensure_neg same]
      exact Or.inl rfl
  · left
    simp only [readSnapshotFile, bind, Except.bind, ensure_neg enough]

/-- The codec of snapshot files: what is written is read back, and whatever bytes are read, no
slice is out of range, and the files that are accepted are those of the format. -/
theorem snapshotFile_codec (crc : Bytes → UInt32) (codec : Codec StoredMeta) :
    (∀ f : SnapFile, (codec.marshal f.snapMeta).length < 2 ^ 32 → f.data.length < 2 ^ 64 →
      readSnapshotFile crc codec (writeSnapshotFile crc codec f) = .ok f) ∧
    ∀ b, readSnapshotFile crc codec b ≠ .error .outOfRange ∧
      ∀ f, readSnapshotFile crc codec b = .ok f ↔
        ∃ metaBytes, metaBytes.length < 2 ^ 32 ∧ f.data.length < 2 ^ 64 ∧
          codec.unmarshal metaBytes = some f.snapMeta ∧ b = snapshotBytes crc metaBytes f.data := by
  constructor
  · intro f short fits
    exact readSnapshotFile_snapshot ⟨_, short, fits, codec.round f.snapMeta, rfl⟩
  · intro b
    rcases readSnapshotFile_cases crc codec b with rejected | ⟨f, snapshot⟩
    · refine ⟨by rw [rejected]; exact nofun, fun f => ⟨fun read => ?_, fun snapshot => ?_⟩⟩
      · rw [rejected] at read
        cases read
      · exact readSnapshotFile_snapshot snapshot
    · have read := readSnapshotFile_snapshot snapshot
      refine ⟨by rw [read]; exact nofun, fun f' => ⟨fun read' => ?_, fun snapshot' => ?_⟩⟩
      · rw [read] at read'
        cases read'
        exact snapshot
      · exact readSnapshotFile_snapshot snapshot'

end EdgeKV.RaftStore
