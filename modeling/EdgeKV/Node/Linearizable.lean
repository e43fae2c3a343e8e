import EdgeKV.Node.Places
import EdgeKV.Store.Codecs

/-!
Linearizability of a shard. The places that a committed log gives to writes and reads
are an order that respects real time, whatever nodes crash, lead or fall behind.
-/
namespace EdgeKV

open Consensus (CommittedBy Later)
open Linearizability (Event Point Precedes At Linearizable linearizable_of_log)

variable {ID : Type} {codecs : Codecs} {window : Nat}

section Shard

variable {cfg : Config ID} {a : Abs ID} {stamped : Stamped ID} {book : Nat → Option Command}
  {c : Cluster ID} {C : List Entry}

/-- The entries of a committed log are attempts of writes that were asked for. -/
theorem committed_meant {groups : List (Group ID Store)} {t : Nat}
    (clients : Clients cfg codecs window groups stamped book a c) (committed : CommittedBy a t C)
    {e : Entry} (he : e ∈ C) {cmd : Command} (command : e.command codecs = some cmd) :
    Meant c.history cmd := by
  obtain ⟨u, -, k, -, -, rfl⟩ := committed
  obtain ⟨normal, -⟩ := requestId_command (requestId_of_command command)
  obtain ⟨cmd', command', meant⟩ := clients.ledger u e (List.mem_of_mem_take he) normal
  cases command.symm.trans command'
  exact meant

theorem log_orderly [DecidableEq ID] {run : List (Cluster ID)}
    {events : List (ClientEvent × Abs ID)}
    (ground : Grounded cfg (Store.machine codecs window) (run.map Cluster.group) a c.group)
    (clients : Clients cfg codecs window (run.map Cluster.group) stamped book a c)
    (within : Cluster.WithinWindow codecs window run)
    (log : Log codecs window (run.map Cluster.group) a stamped events C) :
    Store.Orderly codecs window C := by
  obtain ⟨t, committed⟩ := log.committed
  obtain ⟨s, reflects⟩ := log.reflects
  have indexed : Indexed C :=
    matched_indexed ground.rel.sound
      (Consensus.committedBy_matched ground.rel.sound.inv committed)
  have applied {k : Nat} {e : Entry} (at_ : C[k]? = some e) : Cluster.Applied run e := by
    obtain ⟨g, hg, knows⟩ := witnessed_committedBy ground.witnessed committed at_
    obtain ⟨c₁, hc₁, rfl⟩ := List.mem_map.mp hg
    obtain ⟨g, hg, n, le⟩ := log.reached k (List.getElem?_eq_some_iff.mp at_).1
    obtain ⟨c₂, hc₂, rfl⟩ := List.mem_map.mp hg
    exact ⟨⟨c₁, hc₁, knows⟩, c₂, hc₂, n, by rw [indexed k e at_]; exact le⟩
  refine ⟨indexed, ?_, ?_, ?_⟩
  · rw [(Store.reflects_store reflects).2.2]
    rfl
  · rintro id k ⟨e, at_, names⟩
    obtain ⟨-, cmd, command, rfl⟩ := requestId_command names
    obtain ⟨w, -, named, -⟩ := committed_meant clients committed (List.mem_of_getElem? at_) command
    exact named
  · rintro id j k ⟨e, at_, names⟩ ⟨e', at', names'⟩
    have bound := within e e' id (applied at_) (applied at') names names'
    rw [indexed j e at_, indexed k e' at'] at bound
    omega

end Shard

/-- All that places the operations of a history along the log `C`: gets by `place` and
`point`, writes where they first stand. -/
structure Places (codecs : Codecs) (window : Nat) (stamped : Stamped ID) (C : List Entry)
    (place : ClientEvent × Abs ID → Nat)
    (point : ClientEvent × Abs ID → Point OpId Request Response) : Prop where
  orderly : Store.Orderly codecs window C
  meant : ∀ e ∈ C, ∀ cmd, e.command codecs = some cmd → Meant (stamped.map Prod.fst) cmd
  ordered : stamped.Pairwise fun x y => Later x.2 y.2
  quiet : (stamped.map Prod.fst).Pairwise fun x y =>
    ∀ i out, x = .respond (.get i) out → y.op ≠ .get i
  placed : ∀ x ∈ stamped, Placed codecs window C stamped x.1 x.2
  reads : ∀ x ∈ stamped, answersGet x.1 = true →
    ReadAt codecs window C stamped x (place x) (point x)

section Places

variable {stamped : Stamped ID} {C : List Entry} {place : ClientEvent × Abs ID → Nat}
  {point : ClientEvent × Abs ID → Point OpId Request Response}
  (h : Places codecs window stamped C place point)
include h

theorem places_meaningful : Meaningful codecs C := fun e he cmd command => by
  obtain ⟨w, means, -⟩ := h.meant e he cmd command
  exact ⟨w, means⟩

theorem places_read {k : Nat} {p : Point OpId Request Response}
    (there : p ∈ readsAt stamped place point k) :
    kvSpec.step (Store.along codecs window C k).view p.input =
      ((Store.along codecs window C k).view, p.output) := by
  obtain ⟨x, hx, get, rfl, rfl⟩ := mem_readsAt.mp there
  obtain ⟨i, s, key, t, -, -, input, -, reflects, output, -⟩ := h.reads x hx get
  obtain ⟨-, -, replayed⟩ := Store.reflects_store reflects
  rw [Store.replay_take h.orderly.applied] at replayed
  cases replayed
  rw [input, output]
  exact Store.get_view key

theorem places_invoked {p : Point OpId Request Response} {i : Nat}
    (at_ : At (readsAt stamped place point) (slots codecs window C) p i) :
    .invoke p.op p.input ∈ stamped.map Prod.fst := by
  cases at_ with
  | read le there =>
      obtain ⟨x, hx, get, -, rfl⟩ := mem_readsAt.mp there
      obtain ⟨i, s, key, t, -, op, input, -, -, -, invoked, -⟩ := h.reads x hx get
      rw [op, input]
      exact invoked
  | slot there =>
      obtain ⟨e, at_, found⟩ := slots_at.mp there
      obtain ⟨cmd, w, command, means, -, op, input, -⟩ := slot_some found
      obtain ⟨w', means', -, invoked⟩ := h.meant e (List.mem_of_getElem? at_) cmd command
      cases means.symm.trans means'
      rw [op, input]
      exact invoked

theorem places_responded {op : OpId} {output : Response}
    (told : .respond op output ∈ stamped.map Prod.fst) :
    ∃ p i, At (readsAt stamped place point) (slots codecs window C) p i ∧ p.op = op ∧
      p.output = output := by
  obtain ⟨x, hx, eq⟩ := List.mem_map.mp told
  cases op with
  | write id =>
      have placed := h.placed x hx
      rw [eq] at placed
      obtain ⟨k, e, bytes, res, t, at_, names, produced, decoded, rfl, -⟩ := placed
      obtain ⟨j, -, p, there, op, out⟩ :=
        slots_answer h.orderly (places_meaningful h) at_ names produced decoded
      exact ⟨p, _, .slot there, op, out⟩
  | get i =>
      have get : answersGet x.1 = true := answersGet_iff.mpr ⟨i, output, eq⟩
      obtain ⟨j, s, key, t, told', op, -, le, -⟩ := h.reads x hx get
      rw [eq] at told'
      cases told'
      refine ⟨point x, _, .read ?_ (mem_readsAt.mpr ⟨x, hx, get, rfl, rfl⟩), op, rfl⟩
      rw [slots, List.length_mapIdx]
      exact le

omit h in
/-- A write has one slot. -/
theorem slots_distinct {k m : Nat} {p q : Point OpId Request Response}
    (there : (slots codecs window C)[k]? = some (some p))
    (there' : (slots codecs window C)[m]? = some (some q)) (same : p.op = q.op) : k = m := by
  obtain ⟨e, at_, found⟩ := slots_at.mp there
  obtain ⟨e', at', found'⟩ := slots_at.mp there'
  obtain ⟨cmd, w, command, -, first, op, -⟩ := slot_some found
  obtain ⟨cmd', w', command', -, first', op', -⟩ := slot_some found'
  rw [op, op'] at same
  have id : cmd.requestId = cmd'.requestId := OpId.write.inj same
  rcases Nat.lt_trichotomy k m with lt | eq | gt
  · exact absurd ⟨e, at_, id ▸ requestId_of_command command⟩ (first' k lt)
  · exact eq
  · exact absurd ⟨e', at', id ▸ requestId_of_command command'⟩ (first m gt)

/-- The operation of a read is a get, the operation of a slot is a write. -/
theorem places_kind {p : Point OpId Request Response} {i : Nat}
    (at_ : At (readsAt stamped place point) (slots codecs window C) p i) :
    (∃ k j x, i = 2 * k ∧ x ∈ stamped ∧ place x = k ∧ point x = p ∧ p.op = .get j ∧
      x.1 = .respond (.get j) p.output) ∨
    ∃ k id, i = 2 * k + 1 ∧ (slots codecs window C)[k]? = some (some p) ∧ p.op = .write id := by
  cases at_ with
  | @read k le there =>
      obtain ⟨x, hx, get, at_, rfl⟩ := mem_readsAt.mp there
      obtain ⟨j, s, key, t, told, op, -⟩ := h.reads x hx get
      exact Or.inl ⟨k, j, x, rfl, hx, at_, rfl, op, told⟩
  | @slot k there =>
      obtain ⟨e, -, found⟩ := slots_at.mp there
      obtain ⟨cmd, w, -, -, -, op, -⟩ := slot_some found
      exact Or.inr ⟨k, _, rfl, there, op⟩

theorem places_distinct {p q : Point OpId Request Response} {i j : Nat}
    (hp : At (readsAt stamped place point) (slots codecs window C) p i)
    (hq : At (readsAt stamped place point) (slots codecs window C) q j) (same : p.op = q.op) :
    i = j := by
  rcases places_kind h hp with ⟨k, n, x, rfl, hx, at_, -, op, told⟩ | ⟨k, id, rfl, there, op⟩
  · rcases places_kind h hq with ⟨m, n', y, rfl, hy, at', -, op', told'⟩ | ⟨m, id', -, -, op'⟩
    · rw [op, op'] at same
      cases same
      rw [← at_, ← at', answered_once h.quiet hx hy told told']
    · rw [op, op'] at same
      cases same
  · rcases places_kind h hq with ⟨m, n', y, -, -, -, -, op', -⟩ | ⟨m, id', rfl, there', -⟩
    · rw [op, op'] at same
      cases same
    · rw [slots_distinct there there' same]

/-- A position of the log that was committed at a response is not before the place of
the operation. -/
theorem answered_bound {x : ClientEvent × Abs ID} (hx : x ∈ stamped) {p : Point OpId Request Response} {i : Nat}
    {out : Response} (told : x.1 = .respond p.op out)
    (at_ : At (readsAt stamped place point) (slots codecs window C) p i) :
    ∃ k t, k ≤ C.length ∧ CommittedBy x.2 t (C.take k) ∧ i ≤ 2 * k := by
  cases at_ with
  | @read k le there =>
      obtain ⟨y, hy, get, rfl, rfl⟩ := mem_readsAt.mp there
      obtain ⟨j, s, key, t, told', op, -, short, -, -, -, -, committed⟩ := h.reads y hy get
      rw [op] at told
      cases answered_once h.quiet hx hy told told'
      exact ⟨place x, t, short, committed, Nat.le_refl _⟩
  | @slot k there =>
      obtain ⟨e, -, eq⟩ := slots_at.mp there
      obtain ⟨cmd, w, -, -, first, op, -⟩ := slot_some eq
      have answer := h.placed x hx
      rw [told, op] at answer
      obtain ⟨m, e', bytes, res, t, at', names, -, -, -, committed⟩ := answer
      have inside := (List.getElem?_eq_some_iff.mp at').1
      have le : k ≤ m := by
        by_contra before
        exact first m (by omega) ⟨e', at', names⟩
      exact ⟨m + 1, t, inside, committed, by omega⟩

/-- A position of the log that was committed at an invocation is not after the place of
the operation. -/
theorem invoked_bound {y : ClientEvent × Abs ID} (hy : y ∈ stamped) {p : Point OpId Request Response} {j : Nat}
    {request : Request} (invoked : y.1 = .invoke p.op request)
    (at_ : At (readsAt stamped place point) (slots codecs window C) p j) {k t : Nat}
    (le : k ≤ C.length) (committed : CommittedBy y.2 t (C.take k)) : 2 * k ≤ j := by
  obtain ⟨u, -, size, hsize, long, eq⟩ := committed
  have length := congrArg List.length eq
  rw [List.length_take, List.length_take, Nat.min_eq_left le, Nat.min_eq_left long] at length
  cases at_ with
  | @read m _ there =>
      obtain ⟨x, hx, get, rfl, rfl⟩ := mem_readsAt.mp there
      obtain ⟨i, s, key, t', -, op, -, -, -, -, -, covers, -⟩ := h.reads x hx get
      rw [op] at invoked
      have bound := covers y hy request invoked u
      omega
  | @slot m there =>
      obtain ⟨e, at', found⟩ := slots_at.mp there
      obtain ⟨cmd, w, command, -, -, op, -⟩ := slot_some found
      have absent := h.placed y hy
      rw [invoked, op] at absent
      have after : k ≤ m := by
        by_contra before
        have held : e ∈ C.take k :=
          List.mem_of_getElem? ((List.getElem?_take_of_lt (by omega)).trans at')
        rw [eq] at held
        exact absent u e (List.mem_of_mem_take held) (requestId_of_command command)
      omega

theorem places_realTime {p q : Point OpId Request Response} {i j : Nat}
    (hp : At (readsAt stamped place point) (slots codecs window C) p i)
    (hq : At (readsAt stamped place point) (slots codecs window C) q j)
    (before : Precedes (stamped.map Prod.fst) p.op q.op) : i ≤ j := by
  obtain ⟨x, hx, y, hy, out, input, told, invoked, later⟩ := precedes_stamps h.ordered before
  obtain ⟨k, t, le, committed, bound⟩ := answered_bound h hx told hp
  have after :=
    invoked_bound h hy invoked hq le (Consensus.later_committedBy later committed)
  omega

theorem places_same (k : Nat) :
    (readsAt stamped place point k).Pairwise fun p q =>
      p.op ≠ q.op ∧ ¬ Precedes (stamped.map Prod.fst) q.op p.op := by
  refine List.pairwise_map.mpr (((answers_in_order h.quiet).filter _).imp_of_mem ?_)
  intro x y hx hy apart
  obtain ⟨hx, shown⟩ := List.mem_filter.mp hx
  obtain ⟨hy, shown'⟩ := List.mem_filter.mp hy
  rw [Bool.and_eq_true] at shown shown'
  obtain ⟨i, s, key, t, told, op, -⟩ := h.reads x hx shown.1
  obtain ⟨j, s', key', t', told', op', -⟩ := h.reads y hy shown'.1
  obtain ⟨other, order⟩ := apart i j _ _ told told'
  rw [op, op']
  exact ⟨fun same => other (OpId.get.inj same), order⟩

/-- A history that has its places along a log is linearizable. -/
theorem places_linearizable : Linearizable kvSpec (stamped.map Prod.fst) :=
  linearizable_of_log kvSpec (by rfl) (fun _ _ there => places_read h there)
    (fun _ _ there => slots_carry h.orderly (places_meaningful h) there)
    (fun _ _ at_ => places_invoked h at_) (fun _ _ told => places_responded h told)
    (fun _ _ _ _ hp hq same => places_distinct h hp hq same)
    (fun _ _ _ _ hp hq before => places_realTime h hp hq before) (places_same h)

end Places

section Theorem

variable [DecidableEq ID]

/-- In every run of a shard, with clients that use one request ID for all attempts of a
write, the history of writes and gets is linearizable. -/
theorem shard_linearizable (cfg : Config ID) (codecs : Codecs) (window : Nat) (T : Transport)
    (honours : T.HonoursContext) (run : List (Cluster ID)) (c : Cluster ID)
    (h : Cluster.Run cfg codecs window T run c)
    (within : Cluster.WithinWindow codecs window run) :
    Linearizable kvSpec c.history := by
  obtain ⟨a, stamped, backed⟩ := run_backed honours h
  obtain ⟨C, log⟩ := log_exists backed
  obtain ⟨ground, book, clients⟩ := backed
  obtain ⟨t, committed⟩ := log.committed
  -- Each answered get has a place; which one is chosen here once and for all.
  have placeable : ∀ x, ∃ k p, x ∈ stamped → answersGet x.1 = true →
      ReadAt codecs window C stamped x k p := by
    intro x
    by_cases get : x ∈ stamped ∧ answersGet x.1 = true
    · obtain ⟨k, p, reads⟩ := placed_read get.2 (log.placed x get.1)
      exact ⟨k, p, fun _ _ => reads⟩
    · exact ⟨0, ⟨.get 0, .get "", .got none⟩, fun hx hget => absurd ⟨hx, hget⟩ get⟩
  choose place point reads using placeable
  have places : Places codecs window stamped C place point :=
    { orderly := log_orderly ground clients within log
      meant := fun e he cmd command => by
        rw [clients.history]
        exact committed_meant clients committed he command
      ordered := clients.ordered
      quiet := by
        rw [clients.history]
        exact clients.quiet
      placed := log.placed
      reads := reads }
  rw [← clients.history]
  exact places_linearizable places

end Theorem

section Samples

/-- In no state of the run has a machine gone beyond `b` entries. -/
def Cluster.Small (b : Nat) (run : List (Cluster ID)) : Prop :=
  ∀ c ∈ run, ∀ m, (c.group.procs m).position ≤ b

theorem small_within {b : Nat} {run : List (Cluster ID)} (small : Cluster.Small b run)
    (le : b ≤ window) : Cluster.WithinWindow codecs window run := by
  intro e e' id _ applied _ _
  obtain ⟨-, c, hc, n, index⟩ := applied
  have := small c hc n
  omega

variable {cfg : Config ID} {T : Transport} {b : Nat} {run : List (Cluster ID)} {c c' : Cluster ID}

theorem small_cons (small : Cluster.Small b run) (now : ∀ m, (c.group.procs m).position ≤ b) :
    Cluster.Small b (c :: run) := by
  intro d hd m
  rcases List.mem_cons.mp hd with rfl | old
  · exact now m
  · exact small d old m

variable [DecidableEq ID]

/-- A run that has not gone beyond `b` entries. -/
def Cluster.Within (cfg : Config ID) (codecs : Codecs) (window : Nat) (T : Transport) (b : Nat)
    (c : Cluster ID) : Prop :=
  ∃ run, Cluster.Run cfg codecs window T run c ∧ Cluster.Small b run ∧ c ∈ run

/-- A step of a call alone. -/
theorem within_call (h : c.Within cfg codecs window T b)
    (step : Cluster.Step cfg codecs window T c c') (same : c'.group = c.group) :
    c'.Within cfg codecs window T b := by
  obtain ⟨run, before, small, last⟩ := h
  refine ⟨c' :: run, before.step step, small_cons small fun m => ?_, List.mem_cons_self ..⟩
  rw [same]
  exact small c last m

theorem within_performs {n : ID} {act : Action ID} (h : c.Within cfg codecs window T b)
    (step : Cluster.Step cfg codecs window T c c')
    (performs : Group.Performs cfg (Store.machine codecs window) T n act c.group c'.group)
    (le : (c'.group.procs n).position ≤ b) : c'.Within cfg codecs window T b := by
  obtain ⟨run, before, small, last⟩ := h
  refine ⟨c' :: run, before.step step, small_cons small fun m => ?_, List.mem_cons_self ..⟩
  by_cases own : m = n
  · rw [own]
    exact le
  · obtain ⟨out, p, sent, s, -, -, -, eq⟩ := performs
    simp only [eq, Function.update_of_ne own]
    exact small c last m

/-- Actions of nodes, executed one after the other, with no machine going beyond `b`. -/
def Group.playWithin {σ : Type} (cfg : Config ID) (M : StateMachine σ) (T : Transport) (b : Nat)
    (g : Group ID σ) : List (ID × Action ID) → Option (Group ID σ)
  | [] => some g
  | (n, a) :: rest =>
      (Group.act cfg M T g n a).bind fun g' =>
        if a.fromClient = false ∧ (g'.procs n).position ≤ b then playWithin cfg M T b g' rest
        else none

theorem within_play {actions : List (ID × Action ID)} {g' : Group ID Store}
    (h : c.Within cfg codecs window T b)
    (played : Group.playWithin cfg (Store.machine codecs window) T b c.group actions = some g') :
    Cluster.Within cfg codecs window T b { c with group := g' } := by
  induction actions generalizing c with
  | nil =>
      cases played
      exact h
  | cons action rest ih =>
      obtain ⟨n, act⟩ := action
      obtain ⟨mid, first, played⟩ := Option.bind_eq_some_iff.mp played
      split at played
      next able =>
        have performs : Group.Performs cfg (Store.machine codecs window) T n act c.group mid :=
          Group.act_enabled first
        have moved : Cluster.Within cfg codecs window T b { c with group := mid } :=
          within_performs h (.node able.1 performs) performs able.2
        exact ih (c := { c with group := mid }) moved played
      · cases played

/-- Node 0 replicates the command to node 1, commits it and applies it. -/
def putRun : List (Nat × Action Nat) :=
  let write : Entry := { index := 2, term := 1, type := .normal, data := [0] }
  let req : AppendEntriesRequest Nat :=
    { term := 1, leaderId := 0, prevLogIndex := 1, prevLogTerm := 1, entries := [write]
      leaderCommit := 1 }
  .cons (0, .client (.appendProposals 1))
    [(0, .replication (.replicate 1)), (0, .replication (.send (.append 1 req) 4)),
      (1, .replication (.appendEntries 4 req)),
      (0, .replication (.appendReply 1 4 req { term := 1, success := true })),
      (0, .applier .takeWork), (0, .applier .apply), (0, .applier .finishBatch)]

/-- A put and, after it, a get, both answered by node 0 of three. -/
theorem shard_linearizable_put_get :
    ∃ (run : List (Cluster Nat)) (c : Cluster Nat),
      Cluster.Run trio (shortCodecs firstPut) 10 ⟨false⟩ run c ∧
      c.history =
        [.invoke (.write "r") (.write ⟨"a", .put ⟨[7], false, 0⟩, none⟩),
          .respond (.write "r") (.wrote { version := 1 }), .invoke (.get 1) (.get "a"),
          .respond (.get 1) (.got (some (⟨[7], false, 0⟩, 1)))] ∧
      Linearizable kvSpec c.history := by
  obtain ⟨g₁, h₁, g₂, h₂, le₂, g₃, h₃, told, g₄, h₄, le₄, g₅, h₅, read, applied, seen⟩ :
      ∃ g₁, Group.playWithin trio (Store.machine (shortCodecs firstPut) 10) ⟨false⟩ 2
          (Group.initial (Store.machine (shortCodecs firstPut) 10))
          (committedRun ++ [(0, .applier .apply), (0, .applier .finishBatch)]) = some g₁ ∧
        ∃ g₂, Group.act trio (Store.machine (shortCodecs firstPut) 10) ⟨false⟩ g₁ 0
          (.client (.propose 0 [0])) = some g₂ ∧ (g₂.procs 0).position ≤ 2 ∧
        ∃ g₃, Group.playWithin trio (Store.machine (shortCodecs firstPut) 10) ⟨false⟩ 2 g₂
          putRun = some g₃ ∧
        ((⟨0, [0], 1⟩ : Proposal), .ok [0]) ∈ (g₃.procs 0).raft.done ∧
        ∃ g₄, Group.act trio (Store.machine (shortCodecs firstPut) 10) ⟨false⟩ g₃ 0
          (.client (.readIndex 2)) = some g₄ ∧ (g₄.procs 0).position ≤ 2 ∧
        ∃ g₅, Group.playWithin trio (Store.machine (shortCodecs firstPut) 10) ⟨false⟩ 2 g₄
          (readRun.drop 1) = some g₅ ∧ (2, .ok 2) ∈ (g₅.procs 0).readDone ∧
        2 ≤ (g₅.procs 0).raft.lastApplied ∧
        ((g₅.procs 0).machine.get "a").toOption.map Store.Entry.read =
          some (⟨[7], false, 0⟩, 1) :=
    ⟨_, rfl, _, rfl, Nat.le_of_ble_eq_true rfl, _, rfl, List.mem_cons_self .., _, rfl,
      Nat.le_of_ble_eq_true rfl, _, rfl, List.mem_cons_self .., Nat.le_of_ble_eq_true rfl, rfl⟩
  have start : Cluster.Within trio (shortCodecs firstPut) 10 ⟨false⟩ 2
      (Cluster.initial (shortCodecs firstPut) 10 : Cluster Nat) := by
    refine ⟨_, .initial, fun c hc m => ?_, List.mem_singleton_self _⟩
    rw [List.mem_singleton.mp hc]
    exact Nat.zero_le _
  -- The client puts its command through node 0 and is told the result.
  have invoked := within_call (within_play start h₁)
    (@Cluster.Step.write Nat _ trio _ 10 ⟨false⟩ _ 0 firstPut _ 0 rfl (by decide)
      fun request there => by cases there) rfl
  have performs₂ : Group.Performs trio (Store.machine (shortCodecs firstPut) 10) ⟨false⟩ 0
      (.client (.propose 0 ((shortCodecs firstPut).command.marshal firstPut))) g₁ g₂ :=
    Group.act_enabled h₂
  have proposed := within_performs invoked
    (@Cluster.Step.propose Nat _ trio _ 10 ⟨false⟩ _ 0 0 firstPut g₂ rfl performs₂) performs₂ le₂
  have wrote := within_call (within_play proposed h₃)
    (@Cluster.Step.wrote Nat _ trio _ 10 ⟨false⟩ _ 0 0 firstPut _ [0] { version := 1 } rfl told rfl
      rfl) rfl
  -- Then it reads the key at the same node.
  have asking := within_call wrote (@Cluster.Step.get Nat _ trio _ 10 ⟨false⟩ _ 0 "a") rfl
  have performs₄ : Group.Performs trio (Store.machine (shortCodecs firstPut) 10) ⟨false⟩ 0
      (.client (.readIndex 2)) g₃ g₄ := Group.act_enabled h₄
  have asked := within_performs asking
    (@Cluster.Step.ask Nat _ trio _ 10 ⟨false⟩ _ 1 0 "a" g₄ rfl performs₄) performs₄ le₄
  have confirmed := within_call (within_play asked h₅)
    (@Cluster.Step.confirm Nat _ trio _ 10 ⟨false⟩ _ 1 2 2 0 "a" rfl read applied) rfl
  have got := within_call confirmed (@Cluster.Step.got Nat _ trio _ 10 ⟨false⟩ _ 1 0 "a" rfl) rfl
  obtain ⟨run, h, small, -⟩ := got
  refine ⟨run, _, h, ?_, shard_linearizable trio (shortCodecs firstPut) 10 ⟨false⟩ rfl run _ h
    (small_within small (by decide))⟩
  simp only [Cluster.record, Cluster.setCall, seen]
  rfl

end Samples
end EdgeKV
