import EdgeKV.Node.Shards
import Mathlib.Logic.Relation

/-!
The snapshot stream. A leader sends a snapshot as one logical request, and the transport
cuts it into chunks that fit a message: a header without data, then the data in pieces. The
call may break at any point on either side. What the group that is named in the header is
given is the whole request or nothing.
-/
namespace EdgeKV

/-- `pb.InstallSnapshotRequest`: the request of one group. -/
structure GroupSnapshot (ID : Type) extends InstallSnapshotRequest ID where
  group : Nat
  deriving DecidableEq, Repr

structure InstallSnapshotChunk (ID : Type) where
  header : Option (GroupSnapshot ID) := none
  data : Bytes := []
  deriving DecidableEq, Repr

/-- Far below the limit for one message. -/
def snapshotChunkSize : Nat := 2 ^ 20

variable {ID : Type}

section Client

/-- The loop of `InstallSnapshot` over the data that is left. -/
def dataChunks (data : Bytes) : List Bytes :=
  if data = [] then []
  else data.take snapshotChunkSize :: dataChunks (data.drop snapshotChunkSize)
termination_by data.length
decreasing_by
  rename_i some
  have pos := List.length_pos_iff.mpr some
  rw [List.length_drop, snapshotChunkSize]
  omega

/-- What the client sends for a request, in order. -/
def GroupSnapshot.chunks (req : GroupSnapshot ID) : List (InstallSnapshotChunk ID) :=
  { header := some { req with data := [] } } :: (dataChunks req.data).map fun data => { data }

theorem flatten_dataChunks (data : Bytes) : (dataChunks data).flatten = data := by
  induction data using dataChunks.induct with
  | case1 => simp [dataChunks]
  | case2 data some ih => rw [dataChunks, if_neg some, List.flatten_cons, ih, List.take_append_drop]

theorem length_dataChunks (data : Bytes) : ∀ d ∈ dataChunks data, d.length ≤ snapshotChunkSize := by
  induction data using dataChunks.induct with
  | case1 => simp [dataChunks]
  | case2 data some ih =>
      rw [dataChunks, if_neg some]
      intro d there
      rcases List.mem_cons.mp there with rfl | later
      · exact List.length_take_le _ _
      · exact ih d later

theorem length_chunks (req : GroupSnapshot ID) :
    ∀ c ∈ req.chunks, c.data.length ≤ snapshotChunkSize := by
  intro c there
  rcases List.mem_cons.mp there with rfl | later
  · exact Nat.zero_le _
  · obtain ⟨d, inside, rfl⟩ := List.mem_map.mp later
    exact length_dataChunks req.data d inside

end Client

section Server

/-- What a group does with a request, and what it answers. -/
abbrev SnapshotHandler (ID : Type) := InstallSnapshotRequest ID → InstallSnapshotResponse

/-- The loop of the server: the request as far as it has been received, or how the call ended. -/
inductive SnapshotServer (ID : Type)
  | receiving (req : Option (GroupSnapshot ID))
  | handled (req : GroupSnapshot ID) (resp : InstallSnapshotResponse)
  | failed (err : String)
  deriving DecidableEq, Repr

namespace SnapshotServer

/-- One chunk arrives. A header starts the request over. -/
def recv (req : Option (GroupSnapshot ID)) (chunk : InstallSnapshotChunk ID) : SnapshotServer ID :=
  match chunk.header.or req with
  | none => .failed "snapshot stream did not start with a header"
  | some r => .receiving (some { r with data := r.data ++ chunk.data })

/-- The end of the stream. -/
def eof (resolve : Nat → Option (SnapshotHandler ID)) :
    Option (GroupSnapshot ID) → SnapshotServer ID
  | none => .failed "empty snapshot stream"
  | some req =>
      match resolve req.group with
      | none => .failed ("raft group " ++ toString req.group ++ " is not hosted here")
      | some handle => .handled req (handle req.toInstallSnapshotRequest)

end SnapshotServer

end Server

/-- One call: what the client has still to send, what is on the way, and both ends. -/
structure SnapshotCall (ID : Type) where
  unsent : List (InstallSnapshotChunk ID)
  closed : Bool := false
  wire : List (InstallSnapshotChunk ID) := []
  broken : Bool := false
  server : SnapshotServer ID := .receiving none
  /-- What `InstallSnapshot` has returned to the leader. -/
  result : Option (Except String InstallSnapshotResponse) := none

namespace SnapshotCall

/-- `InstallSnapshot` once the stream is open. -/
def start (req : GroupSnapshot ID) : SnapshotCall ID := { unsent := req.chunks }

/-- Both ends go on independently. A stream may break at any time; the server notices at its
next `Recv`, the client at its next call. -/
inductive Step (resolve : Nat → Option (SnapshotHandler ID)) :
    SnapshotCall ID → SnapshotCall ID → Prop
  | send {s : SnapshotCall ID} {chunk : InstallSnapshotChunk ID}
      {rest : List (InstallSnapshotChunk ID)} (left : s.unsent = chunk :: rest)
      (whole : s.broken = false) (waiting : s.result = none) :
      Step resolve s { s with unsent := rest, wire := s.wire ++ [chunk] }
  | close {s : SnapshotCall ID} (left : s.unsent = []) (waiting : s.result = none) :
      Step resolve s { s with closed := true }
  | recv {s : SnapshotCall ID} {req : Option (GroupSnapshot ID)} {chunk : InstallSnapshotChunk ID}
      {rest : List (InstallSnapshotChunk ID)} (open_ : s.server = .receiving req)
      (arrived : s.wire = chunk :: rest) :
      Step resolve s { s with wire := rest, server := .recv req chunk }
  | eof {s : SnapshotCall ID} {req : Option (GroupSnapshot ID)} (open_ : s.server = .receiving req)
      (all : s.wire = []) (closed : s.closed = true) :
      Step resolve s { s with server := .eof resolve req }
  | cut {s : SnapshotCall ID} : Step resolve s { s with broken := true }
  | lost {s : SnapshotCall ID} {req : Option (GroupSnapshot ID)} (err : String)
      (open_ : s.server = .receiving req) (broken : s.broken = true) :
      Step resolve s { s with server := .failed err }
  | answer {s : SnapshotCall ID} {req : GroupSnapshot ID} {resp : InstallSnapshotResponse}
      (answered : s.server = .handled req resp) (closed : s.closed = true)
      (whole : s.broken = false) (waiting : s.result = none) :
      Step resolve s { s with result := some (.ok resp) }
  | refuse {s : SnapshotCall ID} {err : String} (refused : s.server = .failed err)
      (waiting : s.result = none) : Step resolve s { s with result := some (.error err) }
  | giveUp {s : SnapshotCall ID} (err : String) (broken : s.broken = true)
      (waiting : s.result = none) : Step resolve s { s with result := some (.error err) }

abbrev Steps (resolve : Nat → Option (SnapshotHandler ID)) :
    SnapshotCall ID → SnapshotCall ID → Prop :=
  Relation.ReflTransGen (Step resolve)

end SnapshotCall

section Runs

variable {resolve : Nat → Option (SnapshotHandler ID)} {req : GroupSnapshot ID}
  {s s' : SnapshotCall ID}

/-- What the server has put together from the first chunks of the stream of a request. -/
def gathered (req : GroupSnapshot ID) : List (InstallSnapshotChunk ID) → Option (GroupSnapshot ID)
  | [] => none
  | _ :: pieces => some { req with data := (pieces.map InstallSnapshotChunk.data).flatten }

theorem gathered_chunks (req : GroupSnapshot ID) : gathered req req.chunks = some req := by
  have whole : ((dataChunks req.data).map fun data =>
      ({ data } : InstallSnapshotChunk ID)).map InstallSnapshotChunk.data = dataChunks req.data := by
    rw [List.map_map]
    exact List.map_id _
  rw [GroupSnapshot.chunks, gathered, whole, flatten_dataChunks]

/-- The next chunk of the stream is taken. -/
theorem recv_gathered {consumed rest : List (InstallSnapshotChunk ID)}
    {chunk : InstallSnapshotChunk ID} (stream : consumed ++ chunk :: rest = req.chunks) :
    SnapshotServer.recv (gathered req consumed) chunk =
      .receiving (gathered req (consumed ++ [chunk])) := by
  cases consumed with
  | nil =>
      cases stream
      rfl
  | cons first pieces =>
      have later : chunk ∈ (dataChunks req.data).map fun data => { data } := by
        have tail := (List.cons.inj stream).2
        rw [← tail]
        simp
      obtain ⟨data, -, rfl⟩ := List.mem_map.mp later
      simp [gathered, SnapshotServer.recv]

/-- Where a call stands: the chunks of the request are consumed, on the way or unsent, in this
order, and the server has what it consumed; or it is done with it. -/
structure Delivers (resolve : Nat → Option (SnapshotHandler ID)) (req : GroupSnapshot ID)
    (s : SnapshotCall ID) : Prop where
  stream : ∃ consumed, consumed ++ (s.wire ++ s.unsent) = req.chunks ∧
    ∀ r, s.server = .receiving r → r = gathered req consumed
  closed : s.closed = true → s.unsent = []
  handled : ∀ r resp, s.server = .handled r resp → s.closed = true ∧
    r = req ∧ ∃ handle, resolve req.group = some handle ∧ resp = handle req.toInstallSnapshotRequest
  failed : ∀ err, s.server = .failed err → s.broken = true ∨ resolve req.group = none
  result : ∀ resp, s.result = some (.ok resp) → s.server = .handled req resp

theorem delivers_start (resolve : Nat → Option (SnapshotHandler ID)) (req : GroupSnapshot ID) :
    Delivers resolve req (.start req) where
  stream := ⟨[], rfl, fun r open_ => by cases open_; rfl⟩
  closed := fun no => by cases no
  handled := fun r resp no => by cases no
  failed := fun err no => by cases no
  result := fun resp no => by cases no

/-- A step that leaves the stream and the server alone. -/
theorem delivers_aside (h : Delivers resolve req s) (unsent : s'.unsent = s.unsent)
    (wire : s'.wire = s.wire) (server : s'.server = s.server)
    (closed : s'.closed = true → s.unsent = []) (still : s.closed = true → s'.closed = true)
    (broken : s.broken = true → s'.broken = true)
    (result : ∀ resp, s'.result = some (.ok resp) → s.server = .handled req resp) :
    Delivers resolve req s' := by
  obtain ⟨consumed, stream, open_⟩ := h.stream
  refine ⟨⟨consumed, ?_, ?_⟩, ?_, ?_, ?_, ?_⟩
  · rw [wire, unsent]
    exact stream
  · rw [server]
    exact open_
  · rw [unsent]
    exact closed
  · rw [server]
    exact fun r resp answered => ⟨still (h.handled r resp answered).1, (h.handled r resp answered).2⟩
  · rw [server]
    exact fun err refused => (h.failed err refused).imp_left broken
  · rw [server]
    exact result

theorem delivers_step (h : Delivers resolve req s) (step : s.Step resolve s') :
    Delivers resolve req s' := by
  obtain ⟨consumed, stream, open_⟩ := h.stream
  cases step with
  | @send chunk rest left whole waiting =>
      refine ⟨⟨consumed, ?_, open_⟩, fun closed => ?_, h.handled, h.failed, h.result⟩
      · rw [left] at stream
        simpa using stream
      · rw [h.closed closed] at left
        cases left
  | close left waiting =>
      exact delivers_aside h rfl rfl rfl (fun _ => left) (fun _ => rfl) id h.result
  | @recv r chunk rest receiving arrived =>
      obtain rfl := open_ r receiving
      rw [arrived, List.cons_append] at stream
      have taken := recv_gathered stream
      refine ⟨⟨consumed ++ [chunk], ?_, fun r' now => ?_⟩, h.closed, fun r' resp now => ?_,
        fun err now => ?_, fun resp told => ?_⟩
      · simpa using stream
      · rw [taken] at now
        cases now
        rfl
      · rw [taken] at now
        cases now
      · rw [taken] at now
        cases now
      · cases receiving.symm.trans (h.result resp told)
  | @eof r receiving all closed =>
      have whole : gathered req consumed = some req := by
        rw [all, h.closed closed, List.append_nil, List.append_nil] at stream
        rw [stream, gathered_chunks]
      obtain rfl := open_ r receiving
      rw [whole]
      refine ⟨⟨consumed, stream, fun r' now => ?_⟩, h.closed, fun r' resp now => ?_,
        fun err now => ?_, fun resp told => ?_⟩
      · simp only [SnapshotServer.eof] at now
        split at now <;> cases now
      · simp only [SnapshotServer.eof] at now
        split at now
        · cases now
        next handle hosted =>
          cases now
          exact ⟨closed, rfl, handle, hosted, rfl⟩
      · simp only [SnapshotServer.eof] at now
        split at now
        next unhosted => exact Or.inr unhosted
        · cases now
      · cases receiving.symm.trans (h.result resp told)
  | cut => exact delivers_aside h rfl rfl rfl h.closed id (fun _ => rfl) h.result
  | @lost r err receiving broken =>
      refine ⟨⟨consumed, stream, fun r' now => (by cases now)⟩, h.closed, fun r' resp now => (by cases now),
        fun err' _ => Or.inl broken, fun resp told => ?_⟩
      cases receiving.symm.trans (h.result resp told)
  | @answer r resp answered closed whole waiting =>
      refine delivers_aside h rfl rfl rfl h.closed id id fun resp' told => ?_
      cases told
      obtain ⟨-, rfl, -⟩ := h.handled r resp answered
      exact answered
  | refuse refused waiting =>
      exact delivers_aside h rfl rfl rfl h.closed id id fun resp told => by cases told
  | giveUp err broken waiting =>
      exact delivers_aside h rfl rfl rfl h.closed id id fun resp told => by cases told

theorem delivers_steps (h : Delivers resolve req s) (steps : s.Steps resolve s') :
    Delivers resolve req s' := by
  induction steps with
  | refl => exact h
  | tail _ step ih => exact delivers_step ih step

/-- What a client does that is not disturbed: send the rest and close the stream. -/
theorem send_all (whole : s.broken = false) (waiting : s.result = none) :
    s.Steps resolve { s with unsent := [], wire := s.wire ++ s.unsent, closed := true } := by
  obtain ⟨unsent, closed, wire, broken, server, result⟩ := s
  induction unsent generalizing wire with
  | nil =>
      simp only [List.append_nil]
      exact .single (.close rfl waiting)
  | cons chunk rest ih =>
      have step : SnapshotCall.Step resolve ⟨chunk :: rest, closed, wire, broken, server, result⟩
          ⟨rest, closed, wire ++ [chunk], broken, server, result⟩ := .send rfl whole waiting
      have later := ih (wire ++ [chunk]) whole waiting
      simp only [List.append_assoc, List.singleton_append] at later
      exact .head step later

/-- And a server: take what has arrived. -/
theorem recv_all (h : Delivers resolve req s) {r : Option (GroupSnapshot ID)}
    (receiving : s.server = .receiving r) :
    ∃ r', s.Steps resolve { s with wire := [], server := .receiving r' } := by
  obtain ⟨unsent, closed, wire, broken, server, result⟩ := s
  simp only at receiving
  subst receiving
  induction wire generalizing r with
  | nil => exact ⟨r, .refl⟩
  | cons chunk rest ih =>
      have step : SnapshotCall.Step resolve
          ⟨unsent, closed, chunk :: rest, broken, .receiving r, result⟩
          ⟨unsent, closed, rest, broken, .recv r chunk, result⟩ := .recv rfl rfl
      obtain ⟨consumed, stream, open_⟩ := h.stream
      obtain rfl := open_ r rfl
      rw [recv_gathered stream] at step
      obtain ⟨r', later⟩ := ih (delivers_step h step)
      exact ⟨r', .head step later⟩

/-- A call that nothing disturbs ends with the answer of the group. -/
theorem delivers_completes (h : Delivers resolve req s) (whole : s.broken = false)
    (waiting : s.result = none) {handle : SnapshotHandler ID}
    (hosted : resolve req.group = some handle) :
    ∃ s', s.Steps resolve s' ∧
      s'.result = some (.ok (handle req.toInstallSnapshotRequest)) := by
  cases server : s.server with
  | failed err =>
      rcases h.failed err server with broken | unhosted
      · cases whole.symm.trans broken
      · cases hosted.symm.trans unhosted
  | handled r resp =>
      obtain ⟨closed, -, handle', hosted', eq⟩ := h.handled r resp server
      obtain rfl := Option.some.inj (hosted.symm.trans hosted')
      exact ⟨_, .single (.answer server closed whole waiting), by rw [← eq]⟩
  | receiving r =>
      have sends : s.Steps resolve _ := send_all whole waiting
      have sent := delivers_steps h sends
      obtain ⟨r', receives⟩ := recv_all sent server
      obtain ⟨consumed, stream, open_⟩ := (delivers_steps sent receives).stream
      rw [List.append_nil, List.append_nil] at stream
      have all : r' = some req := by rw [open_ r' rfl, stream, gathered_chunks]
      subst all
      have handled : SnapshotServer.eof resolve (some req) =
          .handled req (handle req.toInstallSnapshotRequest) := by
        simp only [SnapshotServer.eof, hosted]
      exact ⟨_, ((sends.trans receives).tail (.eof rfl rfl rfl)).tail (.answer handled rfl whole waiting),
        rfl⟩

/-- The group that a snapshot is for is given the request as the leader made it or nothing at all,
whatever happens to the stream; the leader is told of success only by that group's own answer; no
message is larger than a chunk; the server sees a malformed stream never; and a call that nothing
disturbs succeeds if the group is hosted. -/
theorem installSnapshot_faithful (resolve : Nat → Option (SnapshotHandler ID))
    (req : GroupSnapshot ID) (s : SnapshotCall ID)
    (steps : (SnapshotCall.start req).Steps resolve s) :
    (∀ r resp, s.server = .handled r resp → r = req ∧
      ∃ handle, resolve req.group = some handle ∧ resp = handle req.toInstallSnapshotRequest) ∧
    (∀ resp, s.result = some (.ok resp) → s.server = .handled req resp) ∧
    (∀ c ∈ s.wire, c.data.length ≤ snapshotChunkSize) ∧
    (∀ err, s.server = .failed err → s.broken = true ∨ resolve req.group = none) ∧
    (s.broken = false → s.result = none → ∀ handle, resolve req.group = some handle →
      ∃ s', s.Steps resolve s' ∧
        s'.result = some (.ok (handle req.toInstallSnapshotRequest))) := by
  have h := delivers_steps (delivers_start resolve req) steps
  refine ⟨fun r resp answered => (h.handled r resp answered).2, h.result, fun c there => ?_, h.failed,
    fun whole waiting handle hosted => delivers_completes h whole waiting hosted⟩
  obtain ⟨consumed, stream, -⟩ := h.stream
  refine length_chunks req c ?_
  rw [← stream]
  exact List.mem_append_right _ (List.mem_append_left _ there)

end Runs

section Samples

/-- The groups of a node as the server resolves them. -/
def MultiRaft.resolve [DecidableEq ID] (m : MultiRaft ID) (numShards : Nat) (n : ID) (group : Nat) :
    Option (SnapshotHandler ID) :=
  (m.handler numShards n group).map fun p req => (p.raft.handleInstallSnapshot req).2.2

/-- A snapshot of three bytes for the second of two shards of a fresh node. -/
theorem installSnapshot_faithful_fresh :
    let req : GroupSnapshot Nat :=
      { group := 1, term := 4, leaderId := 0, lastIncludedIndex := 9, lastIncludedTerm := 3
        data := [7, 8, 9] }
    let fresh : MultiRaft Nat :=
      { replicas := fun _ _ => { raft := {}, storage := {}, machine := {} } }
    ∃ s, (SnapshotCall.start req).Steps (fresh.resolve 2 1) s ∧
      s.result = some (.ok { term := 4 }) ∧ s.server = .handled req { term := 4 } := by
  intro req fresh
  have faithful := installSnapshot_faithful (fresh.resolve 2 1) req _ .refl
  obtain ⟨s, steps, answer⟩ := faithful.2.2.2.2 rfl rfl _ rfl
  have answer : s.result = some (.ok { term := 4 }) := answer
  obtain ⟨-, told, -⟩ := installSnapshot_faithful _ req s steps
  exact ⟨s, steps, answer, told _ answer⟩

end Samples

end EdgeKV
