import EdgeKV.Node.Clients

/-!
What a run of clients keeps. Each event of the history is stamped with the state that
the protocol was in when it happened: a write had no entry in any ledger when it was
invoked; what was answered was committed; and an answered read covers every commit
from before it was invoked.
-/
namespace EdgeKV

open Consensus (CommittedBy Grows Later)
open Linearizability (Event)

variable {ID : Type}

abbrev Stamped (ID : Type) := List (ClientEvent × Abs ID)

/-- Some machine of the run was taken through `k` entries. -/
def Reached (groups : List (Group ID Store)) (k : Nat) : Prop :=
  ∃ g ∈ groups, ∃ n, k ≤ (g.procs n).position

/-- Whatever was committed when get `i` was invoked has an index up to `k`. -/
def UpTo (stamped : Stamped ID) (i k : Nat) : Prop :=
  ∀ x ∈ stamped, ∀ request, x.1 = .invoke (.get i) request → ∀ u, x.2.commit u ≤ k

/-- The command writes what a client asked for. -/
def Meant (history : List ClientEvent) (cmd : Command) : Prop :=
  ∃ w, cmd.write = some w ∧ cmd.requestId ≠ "" ∧
    .invoke (.write cmd.requestId) (.write w) ∈ history

/-- The proposal of call `i` carries the command in the book. -/
def Booked (codecs : Codecs) (book : Nat → Option Command) (i : Nat) (data : Bytes) : Prop :=
  ∃ cmd, book i = some cmd ∧ data = codecs.command.marshal cmd

section Events

variable (codecs : Codecs) (window : Nat) (groups : List (Group ID Store))

/-- An attempt of the write is committed, and the store answered it this way. -/
def WriteAnswered (a : Abs ID) (id : String) (out : Response) : Prop :=
  ∃ t P e bytes res, CommittedBy a t (P ++ [e]) ∧ e.requestId codecs = some id ∧
    Produces (Store.machine codecs window) P e bytes ∧
    codecs.result.unmarshal bytes = some res ∧ out = .wrote res ∧ Reached groups (P.length + 1)

/-- The read saw the store after a committed prefix of the log that covers it. -/
def GetAnswered (stamped : Stamped ID) (a : Abs ID) (i : Nat) (out : Response) : Prop :=
  ∃ t P s key, CommittedBy a t P ∧ Reflects (Store.machine codecs window) s P ∧
    out = .got ((s.get key).toOption.map Store.Entry.read) ∧ Reached groups P.length ∧
    .invoke (.get i) (.get key) ∈ stamped.map Prod.fst ∧ UpTo stamped i P.length

/-- What an event says about the state it is stamped with. -/
def Explained (stamped : Stamped ID) : ClientEvent → Abs ID → Prop
  | .invoke (.write id) _, a => ∀ t, ∀ e ∈ a.ledger t, e.requestId codecs ≠ some id
  | .invoke (.get _) _, _ => True
  | .respond (.write id) out, a => WriteAnswered codecs window groups a id out
  | .respond (.get i) out, a => GetAnswered codecs window groups stamped a i out

variable {codecs window groups}

theorem reached_mono {groups' : List (Group ID Store)} {k : Nat} (sub : groups ⊆ groups')
    (h : Reached groups k) : Reached groups' k := by
  obtain ⟨g, hg, rest⟩ := h
  exact ⟨g, sub hg, rest⟩

theorem explained_mono {groups' : List (Group ID Store)} {stamped : Stamped ID} {e : ClientEvent}
    {a : Abs ID} (sub : groups ⊆ groups') (h : Explained codecs window groups stamped e a) :
    Explained codecs window groups' stamped e a := by
  cases e with
  | invoke op request =>
      cases op with
      | write id => exact h
      | get i => trivial
  | respond op out =>
      cases op with
      | write id =>
          obtain ⟨t, P, e, bytes, res, committed, names, produced, decoded, eq, reached⟩ := h
          exact ⟨t, P, e, bytes, res, committed, names, produced, decoded, eq,
            reached_mono sub reached⟩
      | get i =>
          obtain ⟨t, P, s, key, committed, reflects, eq, reached, rest⟩ := h
          exact ⟨t, P, s, key, committed, reflects, eq, reached_mono sub reached, rest⟩

theorem upTo_push {stamped : Stamped ID} {i k : Nat} {y : ClientEvent} {a : Abs ID}
    (h : UpTo stamped i k) (other : ∀ request, y ≠ .invoke (.get i) request) :
    UpTo (stamped ++ [(y, a)]) i k := by
  intro x hx request eq
  rcases List.mem_append.mp hx with old | new
  · exact h x old request eq
  · rw [List.mem_singleton.mp new] at eq
    exact absurd eq (other request)

/-- A new event explains itself; the old ones keep their explanation. -/
theorem explained_push {stamped : Stamped ID} {e y : ClientEvent} {a b : Abs ID}
    (h : Explained codecs window groups stamped e a)
    (other : ∀ i out request, e = .respond (.get i) out → y ≠ .invoke (.get i) request) :
    Explained codecs window groups (stamped ++ [(y, b)]) e a := by
  cases e with
  | invoke op request =>
      cases op with
      | write id => exact h
      | get i => trivial
  | respond op out =>
      cases op with
      | write id => exact h
      | get i =>
          obtain ⟨t, P, s, key, committed, reflects, eq, reached, invoked, covers⟩ := h
          refine ⟨t, P, s, key, committed, reflects, eq, reached, ?_,
            upTo_push covers fun request => other i out request rfl⟩
          rw [List.map_append]
          exact List.mem_append_left _ invoked

end Events

section Calls

variable (cfg : Config ID) (stamped : Stamped ID) (book : Nat → Option Command) (a : Abs ID)
  (g : Group ID Store)

/-- Get `i` of the key was invoked and has not been answered. -/
def Open (i : Nat) (key : String) : Prop :=
  .invoke (.get i) (.get key) ∈ stamped.map Prod.fst ∧
    ∀ out, .respond (.get i) out ∉ stamped.map Prod.fst

/-- What a call has ascertained so far. -/
def Justified (i : Nat) : NodeCall ID → Prop
  | ⟨_, .writing cmd⟩ => book i = some cmd
  | ⟨_, .proposed cmd⟩ => book i = some cmd
  | ⟨_, .reading key⟩ => Open stamped i key
  | ⟨n, .asked key read⟩ =>
      Open stamped i key ∧ ∃ a₁ clock, Sound cfg a₁ ∧ Awaits a₁ clock n read a g ∧
        ∀ x ∈ stamped, ∀ request, x.1 = .invoke (.get i) request → Later x.2 a₁
  | ⟨n, .confirmed key⟩ =>
      Open stamped i key ∧ UpTo stamped i (g.procs n).raft.lastApplied

variable {cfg stamped book a g}

/-- An event of another operation. -/
theorem justified_push {y : ClientEvent} {b : Abs ID} {i : Nat} {call : NodeCall ID}
    (h : Justified cfg stamped book a g i call) (other : y.op ≠ .get i) :
    Justified cfg (stamped ++ [(y, b)]) book a g i call := by
  have foreign (request : Request) : y ≠ .invoke (.get i) request := by
    rintro rfl
    exact other rfl
  have opens {key : String} (opened : Open stamped i key) : Open (stamped ++ [(y, b)]) i key := by
    refine ⟨?_, fun out told => ?_⟩
    · rw [List.map_append]
      exact List.mem_append_left _ opened.1
    · rw [List.map_append] at told
      rcases List.mem_append.mp told with old | new
      · exact opened.2 out old
      · exact other (congrArg Event.op (List.mem_singleton.mp new)).symm
  obtain ⟨m, progress⟩ := call
  cases progress with
  | writing cmd | proposed cmd => exact h
  | reading key => exact opens h
  | asked key read =>
      obtain ⟨opened, a₁, clock, sound, awaits, invoked⟩ := h
      refine ⟨opens opened, a₁, clock, sound, awaits, fun x hx request eq => ?_⟩
      rcases List.mem_append.mp hx with old | new
      · exact invoked x old request eq
      · rw [List.mem_singleton.mp new] at eq
        exact absurd eq (foreign request)
  | confirmed key => exact ⟨opens h.1, upTo_push h.2 foreign⟩

variable [DecidableEq ID]

/-- A step of the group: the node of the call has not lost what it applied. -/
theorem justified_step {codecs : Codecs} {window : Nat} {T : Transport} {a' : Abs ID} {n : ID}
    {g' : Group ID Store} {i : Nat} {call : NodeCall ID}
    (rel : Rel cfg (Store.machine codecs window) a g)
    (rel' : Rel cfg (Store.machine codecs window) a' g') (grows : Grows n a a')
    (step : Group.StepOf cfg (Store.machine codecs window) T n g g')
    (applied : (g.procs call.node).raft.lastApplied ≤ (g'.procs call.node).raft.lastApplied)
    (h : Justified cfg stamped book a g i call) : Justified cfg stamped book a' g' i call := by
  obtain ⟨m, progress⟩ := call
  cases progress with
  | writing cmd | proposed cmd | reading key => exact h
  | asked key read =>
      obtain ⟨opened, a₁, clock, sound, awaits, invoked⟩ := h
      exact ⟨opened, a₁, clock, sound, awaits_step sound rel rel' grows step awaits, invoked⟩
  | confirmed key =>
      obtain ⟨opened, covers⟩ := h
      exact ⟨opened, fun x hx request eq u => (covers x hx request eq u).trans applied⟩

end Calls

/-- What holds of the calls and the history in every state of a run, given the protocol
state behind the group. The book has the command of each call that writes. -/
structure Clients (cfg : Config ID) (codecs : Codecs) (window : Nat)
    (groups : List (Group ID Store)) (stamped : Stamped ID) (book : Nat → Option Command)
    (a : Abs ID) (c : Cluster ID) : Prop where
  history : stamped.map Prod.fst = c.history
  ordered : stamped.Pairwise fun x y => Later x.2 y.2
  later : ∀ x ∈ stamped, Later x.2 a
  explained : ∀ x ∈ stamped, Explained codecs window groups stamped x.1 x.2
  quiet : c.history.Pairwise fun x y => ∀ i out, x = .respond (.get i) out → y.op ≠ .get i
  numbered : ∀ i, ∀ x ∈ c.history, x.op = .get i → i < c.nextId
  ledger : ∀ t, ∀ e ∈ a.ledger t, e.type = .normal →
    ∃ cmd, e.command codecs = some cmd ∧ Meant c.history cmd
  booked : ∀ i cmd, book i = some cmd → i < c.nextId ∧ Meant c.history cmd
  inbox : Inbox (Booked codecs book) c.nextId c.group
  calls : ∀ i call, c.calls i = some call →
    i < c.nextId ∧ Justified cfg stamped book a c.group i call

section Changes

variable {cfg : Config ID} {codecs : Codecs} {window : Nat} {groups : List (Group ID Store)}
  {stamped : Stamped ID} {book : Nat → Option Command} {a : Abs ID} {c : Cluster ID}

theorem meant_mono {history history' : List ClientEvent} {cmd : Command}
    (sub : history ⊆ history') (h : Meant history cmd) : Meant history' cmd := by
  obtain ⟨w, means, named, invoked⟩ := h
  exact ⟨w, means, named, sub invoked⟩

theorem clients_initial :
    Clients cfg codecs window [Group.initial (Store.machine codecs window)] [] (fun _ => none)
      Consensus.State.initial (Cluster.initial codecs window : Cluster ID) where
  history := rfl
  ordered := .nil
  later x hx := by cases hx
  explained x hx := by cases hx
  quiet := .nil
  numbered i x hx := by cases hx
  ledger t e he := by cases he
  booked i cmd h := by cases h
  inbox := ⟨fun m => ⟨fun q hq => (by cases hq), fun i q hq => (by cases hq),
    fun q out hq => by cases hq⟩, fun m id hid => by cases hid⟩
  calls i call h := by cases h

theorem clients_groups {groups' : List (Group ID Store)}
    (h : Clients cfg codecs window groups stamped book a c) (sub : groups ⊆ groups') :
    Clients cfg codecs window groups' stamped book a c :=
  { h with explained := fun x hx => explained_mono sub (h.explained x hx) }

theorem clients_take (h : Clients cfg codecs window groups stamped book a c) :
    Clients cfg codecs window groups stamped book a c.take :=
  { h with
    numbered := fun i x hx eq => Nat.lt_succ_of_lt (h.numbered i x hx eq)
    booked := fun i cmd eq => ⟨Nat.lt_succ_of_lt (h.booked i cmd eq).1, (h.booked i cmd eq).2⟩
    inbox := inbox_mono h.inbox (fun _ _ => id) (Nat.le_succ _)
    calls := fun i call eq => ⟨Nat.lt_succ_of_lt (h.calls i call eq).1, (h.calls i call eq).2⟩ }

/-- A call moves on or ends. -/
theorem clients_setCall {i : Nat} {next : Option (NodeCall ID)}
    (h : Clients cfg codecs window groups stamped book a c)
    (justified : ∀ call, next = some call →
      i < c.nextId ∧ Justified cfg stamped book a c.group i call) :
    Clients cfg codecs window groups stamped book a (c.setCall i next) :=
  { h with
    calls := fun j call eq => by
      simp only [Cluster.setCall] at eq ⊢
      by_cases same : j = i
      · subst same
        rw [Function.update_self] at eq
        exact justified call eq
      · rw [Function.update_of_ne same] at eq
        exact h.calls j call eq }

/-- A call that writes enters its command, once what it means is in the history. -/
theorem clients_book {i : Nat} {cmd : Command}
    (h : Clients cfg codecs window groups stamped book a c) (below : i < c.nextId)
    (free : book i = none) (meant : Meant c.history cmd) :
    Clients cfg codecs window groups stamped (Function.update book i (some cmd)) a c := by
  have kept {j : Nat} {old : Command} (eq : book j = some old) :
      Function.update book i (some cmd) j = some old := by
    have other : j ≠ i := by
      rintro rfl
      rw [free] at eq
      cases eq
    rw [Function.update_of_ne other, eq]
  refine { h with booked := fun j old eq => ?_, inbox := ?_, calls := fun j call eq => ?_ }
  · by_cases same : j = i
    · subst same
      rw [Function.update_self] at eq
      exact ⟨below, Option.some.inj eq ▸ meant⟩
    · rw [Function.update_of_ne same] at eq
      exact h.booked j old eq
  · refine inbox_mono h.inbox (fun j data issued => ?_) (Nat.le_refl _)
    obtain ⟨old, there, eq⟩ := issued
    exact ⟨old, kept there, eq⟩
  · obtain ⟨bound, justified⟩ := h.calls j call eq
    obtain ⟨m, progress⟩ := call
    refine ⟨bound, ?_⟩
    cases progress with
    | writing old | proposed old => exact kept justified
    | reading key | asked key read | confirmed key => exact justified

/-- An event is recorded. Nothing has been answered of the operation yet if it is a get,
and no call is left that runs it. -/
theorem clients_record {y : ClientEvent} (h : Clients cfg codecs window groups stamped book a c)
    (explained : Explained codecs window groups (stamped ++ [(y, a)]) y a)
    (bound : ∀ i, y.op = .get i → i < c.nextId)
    (unanswered : ∀ i out, .respond (.get i) out ∈ c.history → y.op ≠ .get i)
    (idle : ∀ i call, c.calls i = some call → y.op ≠ .get i) :
    Clients cfg codecs window groups (stamped ++ [(y, a)]) book a (c.record y) := by
  have grown : c.history ⊆ (c.record y).history := List.subset_append_left ..
  have inside {x : ClientEvent × Abs ID} (hx : x ∈ stamped) : x.1 ∈ c.history :=
    h.history ▸ List.mem_map_of_mem hx
  refine
    { history := ?_
      ordered := List.pairwise_append.mpr ⟨h.ordered, List.pairwise_singleton .., ?_⟩
      later := ?_
      explained := ?_
      quiet := List.pairwise_append.mpr ⟨h.quiet, List.pairwise_singleton .., ?_⟩
      numbered := ?_
      ledger := fun t e he normal => ?_
      booked := fun i cmd eq => ⟨(h.booked i cmd eq).1, meant_mono grown (h.booked i cmd eq).2⟩
      inbox := h.inbox
      calls := fun i call eq =>
        ⟨(h.calls i call eq).1, justified_push (h.calls i call eq).2 (idle i call eq)⟩ }
  · rw [List.map_append, h.history]
    rfl
  · intro x hx z hz
    rw [List.mem_singleton.mp hz]
    exact h.later x hx
  · intro x hx
    rcases List.mem_append.mp hx with old | new
    · exact h.later x old
    · rw [List.mem_singleton.mp new]
  · intro x hx
    rcases List.mem_append.mp hx with old | new
    · refine explained_push (h.explained x old) fun i out request eq told => ?_
      exact unanswered i out (eq ▸ inside old) (congrArg Event.op told)
    · rw [List.mem_singleton.mp new]
      exact explained
  · intro x hx z hz i out eq
    rw [List.mem_singleton.mp hz]
    exact unanswered i out (eq ▸ hx)
  · intro i x hx eq
    rcases List.mem_append.mp hx with old | new
    · exact h.numbered i x old eq
    · rw [List.mem_singleton.mp new] at eq
      exact bound i eq
  · obtain ⟨cmd, command, meant⟩ := h.ledger t e he normal
    exact ⟨cmd, command, meant_mono grown meant⟩

/-- A step of the group, with the calls that survive it. -/
theorem clients_group [DecidableEq ID] {n : ID} {a' : Abs ID} {c' : Cluster ID}
    (h : Clients cfg codecs window groups stamped book a c)
    (advance : Advance cfg n (c.group.procs n).proposeCh (c'.group.procs n).raft a a')
    (history : c'.history = c.history) (le : c.nextId ≤ c'.nextId)
    (inbox : Inbox (Booked codecs book) c'.nextId c'.group)
    (calls : ∀ i call, c'.calls i = some call →
      i < c'.nextId ∧ Justified cfg stamped book a' c'.group i call) :
    Clients cfg codecs window (c'.group :: groups) stamped book a' c' where
  history := h.history.trans history.symm
  ordered := h.ordered
  later x hx := (h.later x hx).tail ⟨n, advance.grows⟩
  explained x hx := explained_mono (List.subset_cons_self ..) (h.explained x hx)
  quiet := history ▸ h.quiet
  numbered i x hx eq := (h.numbered i x (history ▸ hx) eq).trans_le le
  ledger t e he normal := by
    rw [history]
    rcases advance.minted t e he with ⟨u, old⟩ | noop | ⟨q, offered, data⟩
    · exact h.ledger u e old normal
    · rw [normal] at noop
      cases noop
    · obtain ⟨cmd, there, eq⟩ := (h.inbox.issued n).offered q offered
      refine ⟨cmd, ?_, (h.booked q.id cmd there).2⟩
      simp only [Entry.command, normal, data, eq, codecs.command.round]
  booked i cmd eq := by
    rw [history]
    exact ⟨(h.booked i cmd eq).1.trans_le le, (h.booked i cmd eq).2⟩
  inbox := inbox
  calls := calls

end Changes

section Runs

variable {cfg : Config ID} {codecs : Codecs} {window : Nat} {T : Transport}
  {groups : List (Group ID Store)} {stamped : Stamped ID} {book : Nat → Option Command}
  {a : Abs ID} {c c' : Cluster ID}

/-- What a state of a run comes with. -/
structure Backed [DecidableEq ID] (cfg : Config ID) (codecs : Codecs) (window : Nat)
    (groups : List (Group ID Store)) (c : Cluster ID) (a : Abs ID) (stamped : Stamped ID) :
    Prop where
  ground : Grounded cfg (Store.machine codecs window) groups a c.group
  clients : ∃ book, Clients cfg codecs window groups stamped book a c

/-- No entry of a write stands in a ledger before it is invoked. -/
theorem uninvoked_absent (h : Clients cfg codecs window groups stamped book a c) {id : String}
    (new : ∀ w, .invoke (.write id) (.write w) ∉ c.history) (t : Nat) :
    ∀ e ∈ a.ledger t, e.requestId codecs ≠ some id := by
  intro e he names
  obtain ⟨normal, cmd, command, same⟩ := requestId_command names
  obtain ⟨cmd', command', w, -, -, invoked⟩ := h.ledger t e he normal
  rw [command] at command'
  cases command'
  exact new w (same ▸ invoked)

/-- One call goes on with a step of the group, the others stay. -/
theorem calls_update {a' : Abs ID} {g' : Group ID Store} {i k : Nat} {next : NodeCall ID}
    (others : ∀ j call, c.calls j = some call →
      j < c.nextId ∧ Justified cfg stamped book a' g' j call)
    (le : c.nextId ≤ k) (bound : i < c.nextId) (own : Justified cfg stamped book a' g' i next)
    (j : Nat) (call : NodeCall ID) (eq : Function.update c.calls i (some next) j = some call) :
    j < k ∧ Justified cfg stamped book a' g' j call := by
  by_cases same : j = i
  · subst same
    rw [Function.update_self] at eq
    cases eq
    exact ⟨bound.trans_le le, own⟩
  · rw [Function.update_of_ne same] at eq
    obtain ⟨below, justified⟩ := others j call eq
    exact ⟨below.trans_le le, justified⟩

/-- The call of a write whose invocation stands in the history. -/
theorem clients_writing {i : Nat} {cmd : Command}
    (h : Clients cfg codecs window groups stamped book a c)
    (bound : i < c.nextId) (free : book i = none) (meant : Meant c.history cmd) (n : ID) :
    ∃ book', Clients cfg codecs window groups stamped book' a
      (c.setCall i (some ⟨n, .writing cmd⟩)) := by
  refine ⟨_, clients_setCall (clients_book h bound free meant) fun call moved => ?_⟩
  cases moved
  exact ⟨bound, Function.update_self ..⟩

/-- A number that was not given out yet has not been taken up by any node. -/
theorem nextId_unserved (clients : Clients cfg codecs window groups stamped book a c) (n : ID) :
    (c.group.procs n).Unserved c.nextId := by
  have below := clients.inbox.reads n
  refine ⟨fun batch term readIndex start confirming inside => ?_, fun answer told => ?_⟩
  · refine absurd (below c.nextId ?_) (Nat.lt_irrefl _)
    simp only [Process.readIds, confirming, List.mem_append]
    exact Or.inl (Or.inr inside)
  · refine absurd (below c.nextId ?_) (Nat.lt_irrefl _)
    simp only [Process.readIds, List.mem_append]
    exact Or.inr (List.mem_map_of_mem told)

variable [DecidableEq ID]

/-- A proposal that was acknowledged answers the write of its call. -/
theorem told_answered (ground : Grounded cfg (Store.machine codecs window) groups a c.group)
    (h : Clients cfg codecs window groups stamped book a c) {n : ID} {q : Proposal} {cmd : Command}
    {out : Bytes} {res : Result} (told : (q, .ok out) ∈ (c.group.procs n).raft.done)
    (own : book q.id = some cmd) (decoded : codecs.result.unmarshal out = some res) :
    WriteAnswered codecs window groups a cmd.requestId (.wrote res) := by
  obtain ⟨P, below, committed, produced⟩ := (ground.promises n).done q out told
  obtain ⟨cmd', there, data⟩ := (h.inbox.issued n).told q out told
  rw [own] at there
  cases there
  have command : (q.entry (P.length + 1)).command codecs = some cmd := by
    simp only [Entry.command, Proposal.entry, data, codecs.command.round]
  have applied := applied_le_position (ground.rel.nodes n).working
  exact ⟨_, P, _, out, res, committed, requestId_of_command command, produced, decoded, rfl,
    c.group, ground.current, n, by omega⟩

/-- A confirmed get reads the store after a committed prefix that covers it. -/
theorem confirmed_answered (ground : Grounded cfg (Store.machine codecs window) groups a c.group)
    {n : ID} {i : Nat} {key : String} (opened : Open stamped i key)
    (covers : UpTo stamped i (c.group.procs n).raft.lastApplied) :
    GetAnswered codecs window groups stamped a i
      (.got (((c.group.procs n).machine.get key).toOption.map Store.Entry.read)) := by
  have node := ground.rel.nodes n
  have applied := applied_le_position node.working
  have bound := (position_le_horizon node.working).trans node.working.horizon_le
  have committed := Consensus.committedBy_take node.committed (c.group.procs n).position
  rw [List.take_take, Nat.min_eq_left bound] at committed
  have size : ((a.log n).take (c.group.procs n).position).length = (c.group.procs n).position := by
    rw [List.length_take, Nat.min_eq_left (bound.trans node.commit_le)]
  refine ⟨_, _, _, key, committed, node.working.reflects, rfl, ?_, opened.1, ?_⟩
  · exact ⟨c.group, ground.current, n, size.le⟩
  · intro x hx request eq u
    rw [size]
    exact (covers x hx request eq u).trans applied

/-- A step of a call alone. -/
theorem backed_stay (ground : Grounded cfg (Store.machine codecs window) groups a c.group)
    (same : c'.group = c.group) (h : Clients cfg codecs window groups stamped book a c') :
    Backed cfg codecs window (c'.group :: groups) c' a stamped := by
  refine ⟨?_, book, clients_groups h (List.subset_cons_self ..)⟩
  rw [same]
  exact grounded_stay ground

/-- The calls that a step of the group does not concern. -/
theorem calls_performed {n : ID} {act : Action ID} {g' : Group ID Store} {a' : Abs ID}
    (ground : Grounded cfg (Store.machine codecs window) groups a c.group)
    (rel' : Rel cfg (Store.machine codecs window) a' g') (grows : Consensus.Grows n a a')
    (clients : Clients cfg codecs window groups stamped book a c)
    (performs : Group.Performs cfg (Store.machine codecs window) T n act c.group g') {i : Nat}
    {call : NodeCall ID} (there : c.calls i = some call) :
    i < c.nextId ∧ Justified cfg stamped book a' g' i call := by
  obtain ⟨bound, justified⟩ := clients.calls i call there
  exact ⟨bound, justified_step ground.rel rel' grows (Group.performs_step performs)
    (performs_applied performs call.node) justified⟩

section Cases

variable {n : ID} {i : Nat} {cmd : Command} {key : String} {g' : Group ID Store}

/-- A write is invoked for the first time, or it is one more attempt. -/
theorem backed_write (h : Backed cfg codecs window groups c a stamped) {w : Write} {now : Int}
    (means : cmd.write = some w) (named : cmd.requestId ≠ "")
    (own : ∀ request, .invoke (.write cmd.requestId) request ∈ c.history → request = .write w)
    (n : ID) :
    let c' := (c.setCall c.nextId (some ⟨n, .writing (cmd.stamp now)⟩)).take.invoke
      (.write cmd.requestId) (.write w)
    ∃ stamped', Backed cfg codecs window (c'.group :: groups) c' a stamped' := by
  obtain ⟨ground, book, clients⟩ := h
  have free : book c.nextId = none := by
    cases eq : book c.nextId with
    | none => rfl
    | some old => exact absurd (clients.booked _ old eq).1 (Nat.lt_irrefl _)
  have taken := clients_take clients
  by_cases invoked : .invoke (.write cmd.requestId) (.write w) ∈ c.history
  · obtain ⟨book', writing⟩ := clients_writing taken (Nat.lt_succ_self _) free
      (show Meant c.history (cmd.stamp now) from ⟨w, means, named, invoked⟩) n
    have eq : (c.setCall c.nextId (some ⟨n, .writing (cmd.stamp now)⟩)).take.invoke
        (.write cmd.requestId) (.write w) =
          c.take.setCall c.nextId (some ⟨n, .writing (cmd.stamp now)⟩) := if_pos invoked
    dsimp only
    rw [eq]
    exact ⟨stamped, backed_stay ground rfl writing⟩
  · have new : ∀ w', .invoke (.write cmd.requestId) (.write w') ∉ c.history := by
      intro w' there
      cases own _ there
      exact invoked there
    have recorded := clients_record taken
      (y := .invoke (.write cmd.requestId) (.write w)) (uninvoked_absent clients new)
      (fun i eq => by cases eq) (fun i out _ eq => by cases eq) (fun i call _ eq => by cases eq)
    have meant : Meant (c.history ++ [.invoke (.write cmd.requestId) (.write w)]) (cmd.stamp now) :=
      ⟨w, means, named, List.mem_append_right _ (List.mem_singleton_self _)⟩
    obtain ⟨book', writing⟩ := clients_writing recorded (Nat.lt_succ_self _) free meant n
    have eq : (c.setCall c.nextId (some ⟨n, .writing (cmd.stamp now)⟩)).take.invoke
        (.write cmd.requestId) (.write w) =
          (c.take.record (.invoke (.write cmd.requestId) (.write w))).setCall c.nextId
            (some ⟨n, .writing (cmd.stamp now)⟩) := if_neg invoked
    dsimp only
    rw [eq]
    exact ⟨_, backed_stay ground rfl writing⟩

theorem backed_propose (honours : T.HonoursContext) (h : Backed cfg codecs window groups c a stamped)
    (call : c.calls i = some ⟨n, .writing cmd⟩)
    (performs : Group.Performs cfg (Store.machine codecs window) T n
      (.client (.propose i (codecs.command.marshal cmd))) c.group g') :
    let c' := { c with group := g', calls := Function.update c.calls i (some ⟨n, .proposed cmd⟩) }
    ∃ a', Backed cfg codecs window (c'.group :: groups) c' a' stamped := by
  obtain ⟨ground, book, clients⟩ := h
  obtain ⟨a', advance, ground'⟩ := grounded_step honours ground (Group.performs_step performs)
  obtain ⟨bound, own⟩ := clients.calls i _ call
  refine ⟨a', ground', book, clients_group clients advance rfl (Nat.le_refl _) ?_ ?_⟩
  · refine performs_inbox performs clients.inbox (fun id data eq => ?_) (fun id eq => ?_)
      (Nat.le_refl _)
    · cases eq
      exact ⟨cmd, own, rfl⟩
    · cases eq
  · exact calls_update
      (fun _ _ => calls_performed ground ground'.rel advance.grows clients performs) (Nat.le_refl _)
      bound own

theorem backed_ask (honours : T.HonoursContext) (h : Backed cfg codecs window groups c a stamped)
    (call : c.calls i = some ⟨n, .reading key⟩)
    (performs : Group.Performs cfg (Store.machine codecs window) T n
      (.client (.readIndex c.nextId)) c.group g') :
    let c' :=
      { c with
        group := g'
        calls := Function.update c.calls i (some ⟨n, .asked key c.nextId⟩)
        nextId := c.nextId + 1 }
    ∃ a', Backed cfg codecs window (c'.group :: groups) c' a' stamped := by
  obtain ⟨ground, book, clients⟩ := h
  obtain ⟨a', advance, ground'⟩ := grounded_step honours ground (Group.performs_step performs)
  obtain ⟨bound, opened⟩ := clients.calls i _ call
  have awaits := awaits_step ground.rel.sound ground.rel ground'.rel advance.grows
    (Group.performs_step performs) (awaits_initial ground.timed (nextId_unserved clients n))
  refine ⟨a', ground', book, clients_group clients advance rfl (Nat.le_succ _) ?_ ?_⟩
  · refine performs_inbox performs clients.inbox (fun id data eq => ?_) (fun id eq => ?_)
      (Nat.le_succ _)
    · cases eq
    · cases eq
      exact Nat.lt_succ_self _
  · exact calls_update
      (fun _ _ => calls_performed ground ground'.rel advance.grows clients performs) (Nat.le_succ _)
      bound ⟨opened, a, _, ground.rel.sound, awaits, fun x hx _ _ => clients.later x hx⟩

theorem backed_get (h : Backed cfg codecs window groups c a stamped) (n : ID) (key : String) :
    let c' := (c.setCall c.nextId (some ⟨n, .reading key⟩)).take.record
      (.invoke (.get c.nextId) (.get key))
    ∃ stamped', Backed cfg codecs window (c'.group :: groups) c' a stamped' := by
  obtain ⟨ground, book, clients⟩ := h
  have unseen : ∀ x ∈ c.history, x.op ≠ .get c.nextId := fun x hx eq =>
    absurd (clients.numbered _ x hx eq) (Nat.lt_irrefl _)
  have recorded := clients_record (clients_take clients)
    (y := .invoke (.get c.nextId) (.get key)) trivial
    (fun i eq => by cases eq; exact Nat.lt_succ_self _)
    (fun i out there eq => by cases eq; exact unseen _ there rfl)
    (fun i call there eq => by
      cases eq
      exact absurd (clients.calls _ call there).1 (Nat.lt_irrefl _))
  refine ⟨_, backed_stay ground rfl (clients_setCall recorded fun call moved => ?_)⟩
  cases moved
  refine ⟨Nat.lt_succ_self _, ?_, fun out told => ?_⟩
  · rw [List.map_append]
    exact List.mem_append_right _ (List.mem_singleton_self _)
  · rw [List.map_append, clients.history] at told
    rcases List.mem_append.mp told with old | now
    · exact unseen _ old rfl
    · cases List.mem_singleton.mp now

theorem backed_got (h : Backed cfg codecs window groups c a stamped)
    (call : c.calls i = some ⟨n, .confirmed key⟩) :
    let c' := (c.setCall i none).record (.respond (.get i)
      (.got (((c.group.procs n).machine.get key).toOption.map Store.Entry.read)))
    ∃ stamped', Backed cfg codecs window (c'.group :: groups) c' a stamped' := by
  obtain ⟨ground, book, clients⟩ := h
  obtain ⟨bound, opened, covers⟩ := clients.calls i _ call
  have ended : Clients cfg codecs window groups stamped book a (c.setCall i none) :=
    clients_setCall clients fun _ moved => by cases moved
  have answer := confirmed_answered ground opened covers
  refine ⟨_, backed_stay ground rfl (clients_record ended
    (explained_push (e := .respond (.get i) _) answer fun j out request _ eq => by cases eq)
    (fun j eq => by cases eq; exact bound)
    (fun j out there eq => ?_) (fun j call' there eq => ?_))⟩
  · cases eq
    exact opened.2 out (clients.history ▸ there)
  · cases eq
    simp [Cluster.setCall] at there

end Cases

theorem backed_step (honours : T.HonoursContext) (h : Backed cfg codecs window groups c a stamped)
    (step : Cluster.Step cfg codecs window T c c') :
    ∃ a' stamped', Backed cfg codecs window (c'.group :: groups) c' a' stamped' := by
  have backed := h
  obtain ⟨ground, book, clients⟩ := h
  cases step with
  | @node n act g' inner performs =>
      obtain ⟨a', advance, ground'⟩ := grounded_step honours ground (Group.performs_step performs)
      refine ⟨a', stamped, ground', book, clients_group clients advance rfl (Nat.le_refl _) ?_ ?_⟩
      · refine performs_inbox performs clients.inbox (fun id data eq => ?_) (fun id eq => ?_)
          (Nat.le_refl _)
        · rw [eq] at inner
          cases inner
        · rw [eq] at inner
          cases inner
      · exact fun i call => calls_performed ground ground'.rel advance.grows clients performs
  | @crash n g' crashes =>
      obtain ⟨a', advance, ground'⟩ := grounded_step honours ground (Group.crashes_step crashes)
      refine ⟨a', stamped, ground', book, clients_group clients advance rfl (Nat.le_refl _)
        (crashes_inbox crashes clients.inbox) ?_⟩
      intro i call eq
      obtain ⟨there, survives⟩ := Option.filter_eq_some_iff.mp eq
      obtain ⟨bound, justified⟩ := clients.calls i call there
      refine ⟨bound, justified_step ground.rel ground'.rel advance.grows (Group.crashes_step crashes)
        ?_ justified⟩
      obtain ⟨ops, s, p, -, -, -, rfl⟩ := crashes
      simp only [Function.update_of_ne (of_decide_eq_true survives), le_refl]
  | write means named own => exact ⟨a, backed_write backed means named own _⟩
  | propose call performs =>
      obtain ⟨a', later⟩ := backed_propose honours backed call performs
      exact ⟨a', stamped, later⟩
  | @wrote i n cmd q out res call told own decoded =>
      obtain ⟨-, booked⟩ := clients.calls i _ call
      subst own
      have ended : Clients cfg codecs window groups stamped book a (c.setCall q.id none) :=
        clients_setCall clients fun _ moved => by cases moved
      exact ⟨a, _, backed_stay ground rfl (clients_record ended
        (y := .respond (.write cmd.requestId) (.wrote res))
        (told_answered ground clients told booked decoded) (fun i eq => by cases eq)
        (fun i out _ eq => by cases eq) (fun i call _ eq => by cases eq))⟩
  | get => exact ⟨a, backed_get backed _ _⟩
  | ask call performs =>
      obtain ⟨a', later⟩ := backed_ask honours backed call performs
      exact ⟨a', stamped, later⟩
  | @notReady i read n key call told =>
      obtain ⟨bound, opened, -⟩ := clients.calls i _ call
      refine ⟨a, stamped, backed_stay ground rfl (clients_setCall clients fun call' moved => ?_)⟩
      cases moved
      exact ⟨bound, opened⟩
  | @confirm i read index n key call told applied =>
      obtain ⟨bound, opened, a₁, clock, -, awaits, invoked⟩ := clients.calls i _ call
      refine ⟨a, stamped, backed_stay ground rfl (clients_setCall clients fun call' moved => ?_)⟩
      cases moved
      refine ⟨bound, opened, fun x hx request eq u => ?_⟩
      calc x.2.commit u ≤ a₁.commit u := Consensus.later_commit (invoked x hx request eq) u
        _ ≤ index := awaits.answered index told u
        _ ≤ _ := applied
  | got call => exact ⟨a, backed_got backed call⟩
  | @giveUp i =>
      exact ⟨a, stamped, backed_stay ground rfl
        (clients_setCall clients fun _ moved => by cases moved)⟩

theorem run_backed (honours : T.HonoursContext) {run : List (Cluster ID)}
    (h : Cluster.Run cfg codecs window T run c) :
    ∃ a stamped, Backed cfg codecs window (run.map Cluster.group) c a stamped := by
  induction h with
  | initial => exact ⟨_, _, grounded_initial _, _, clients_initial⟩
  | step _ next ih =>
      obtain ⟨a, stamped, backed⟩ := ih
      exact backed_step honours backed next

end Runs
end EdgeKV
