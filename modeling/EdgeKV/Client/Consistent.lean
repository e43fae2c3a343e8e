import EdgeKV.Client.Attempts

/-!
Every step of the whole system keeps what holds of it, and is a step of the shards or leaves
them alone.
-/
namespace EdgeKV

open Linearizability (Event Trace)
open Server (KvRequest Method Hop Reply)
open Client (Out DoError Heard)

variable {ID : Type} {d : Deployment ID} {sys sys' : Service ID}

section Callers

theorem consistent_clients (h : sys.Consistent d) (clients : Nat → Client) :
    { sys with clients }.Consistent d := by
  have later : sys.Later { sys with clients } :=
    later_ops (fun k op here => ⟨op, here, kept_refl op⟩) List.prefix_rfl rfl rfl rfl
  exact consistent_later later h none (by simp) h.inner
    (tidy_same h.tidy rfl rfl fun s => Nat.le_refl _) h.announced (still_awaited rfl)
    (fun e x there => Or.inl there) fun _ no => by cases no

theorem attempt_ne (h : sys.Consistent d) {k : Nat} {x : Nat × OpId} (made : sys.Attempt d k x) :
    k ≠ sys.nextOp := by
  obtain ⟨s, name⟩ := x
  cases name with
  | write id =>
      obtain ⟨op, -, here, -⟩ := made
      exact Nat.ne_of_lt (h.tidy.known k op here).1
  | get i =>
      obtain ⟨op, here, -⟩ := made
      exact Nat.ne_of_lt (h.tidy.known k op here).1

theorem consistent_start (h : sys.Consistent d) {client : Nat} {request : KvRequest} {id : String}
    (fresh : ∀ k op, sys.ops k = some op → op.requestId ≠ id) (nonempty : id ≠ "")
    (carries : request.Carries id) : (sys.start d client request id).Consistent d := by
  have old {k : Nat} {op : Operation} (here : sys.ops k = some op) : k ≠ sys.nextOp :=
    Nat.ne_of_lt (h.tidy.known k op here).1
  have same {k : Nat} (other : k ≠ sys.nextOp) :
      (sys.start d client request id).ops k = sys.ops k := Function.update_of_ne other _ _
  have later : sys.Later (sys.start d client request id) :=
    later_ops (fun k op here => ⟨op, (same (old here)).trans here, kept_refl op⟩)
      (List.prefix_append _ _) rfl rfl rfl
  -- An operation of the new state is an old one or the one that starts.
  have find {k : Nat} {op : Operation} (here : (sys.start d client request id).ops k = some op) :
      sys.ops k = some op ∨ k = sys.nextOp ∧ op.request = request ∧ op.requestId = id ∧
        op.reads = [] ∧ op.source = none ∧ op.Awaits (sys.start d client request id) k := by
    by_cases new : k = sys.nextOp
    · subst new
      simp only [Service.start, Function.update_self, Option.some.injEq] at here
      subst here
      exact Or.inr ⟨rfl, rfl, rfl, rfl, rfl, fun _ _ _ no => by cases no⟩
    · exact Or.inl ((same new).symm.trans here)
  refine consistent_later later h
    ((d.gateway.meaning request.key request.method).map fun r => .inl (.invoke sys.nextOp r)) rfl ?_
    ⟨fun k op here => ?_, fun k k' op op' here here' eq => ?_, fun k op x here made => ?_,
      fun k op src here told => ?_⟩ (fun k op r here means => ?_) (fun k op here => ?_)
    (fun e x there => Or.inl there) fun e new => ?_
  · simp only [Service.start, Linearizability.Trace.inner_append, h.inner]
    cases d.gateway.meaning request.key request.method <;> simp [Linearizability.Trace.inner]
  · cases find here with
    | inl before =>
        obtain ⟨bound, rest⟩ := h.tidy.known k op before
        exact ⟨Nat.lt_succ_of_lt bound, rest⟩
    | inr new =>
        obtain ⟨rfl, req, named, -, -, -⟩ := new
        rw [named, req]
        exact ⟨Nat.lt_succ_self _, nonempty, carries⟩
  · cases find here with
    | inl before =>
        cases find here' with
        | inl before' => exact h.tidy.distinct k k' op op' before before' eq
        | inr new' => exact absurd (eq.trans new'.2.2.1) (fresh k op before)
    | inr new =>
        cases find here' with
        | inl before' => exact absurd (eq.symm.trans new.2.2.1) (fresh k' op' before')
        | inr new' => exact new.1.trans new'.1.symm
  · cases find here with
    | inl before =>
        obtain ⟨bound, others⟩ := h.tidy.reads k op x before made
        refine ⟨bound, fun k' op' here' made' => ?_⟩
        cases find here' with
        | inl before' => exact others k' op' before' made'
        | inr new' =>
            rw [new'.2.2.2.1] at made'
            cases made'
    | inr new =>
        rw [new.2.2.2.1] at made
        cases made
  · cases find here with
    | inl before => exact h.tidy.sources k op src before told
    | inr new =>
        rw [new.2.2.2.2.1] at told
        cases told
  · cases find here with
    | inl before => exact List.mem_append_left _ (h.announced k op r before means)
    | inr new =>
        obtain ⟨rfl, req, -, -, -, -⟩ := new
        rw [Operation.meaning, req] at means
        exact List.mem_append_right _ (by simp [means])
  · cases find here with
    | inl before => exact Or.inl ⟨op, before, rfl⟩
    | inr new => exact Or.inr new.2.2.2.2.2
  · obtain ⟨r, means, rfl⟩ := Option.mem_map.mp new
    refine ⟨⟨_, Function.update_self .., means⟩, fun x r' there => ?_⟩
    obtain ⟨before, after, split⟩ := List.append_of_mem there
    obtain ⟨k, made, -⟩ := h.admitted before (.inr (.invoke x r')) ⟨after, by simp [split]⟩
    exact ⟨k, attempt_ne h made, attempt_later later made⟩

/-- What the loop of `do` returns is what the last request said. -/
theorem afterRequest_done {c : Client} {key target : String} {attempt : Nat} {heard : Heard}
    {result : Except DoError Out} {a : Answer}
    (done : (c.afterRequest key attempt target heard).2 = .done result)
    (told : Answer.ofResult result = some a) : Answer.ofRequest heard.result = some a := by
  obtain ⟨outcome, shard, canceled, gone⟩ := heard
  cases outcome with
  | ok out =>
      cases done
      cases out <;> exact told
  | error err =>
      have no {c : Client} (h : (c.backOff key attempt gone).2 = .done result) : False := by
        rw [Client.backOff] at h
        cases gone
        · cases h
        · cases h
          cases told
      cases err with
      | notFound | versionMismatch =>
          cases done
          exact told
      | notCacheable =>
          cases done
          cases told
      | redirect shard leaderURL =>
          simp only [Client.afterRequest] at done
          split at done
          · cases done
          · exact (no done).elim
      | other text =>
          simp only [Client.afterRequest] at done
          split at done
          · cases done
            cases told
          · exact (no done).elim

theorem consistent_tell (h : sys.Consistent d) (news : Option (Event Nat Request Answer))
    (admits : ∀ e ∈ news, sys.Admits d sys.trace (.inl e)) : (sys.tell news).Consistent d := by
  have later : sys.Later (sys.tell news) :=
    later_ops (fun k op here => ⟨op, here, kept_refl op⟩) (List.prefix_append _ _) rfl rfl rfl
  refine consistent_later later h (news.map .inl) rfl ?_
    (tidy_same h.tidy rfl rfl fun s => Nat.le_refl _)
    (fun k op r here means => List.mem_append_left _ (h.announced k op r here means))
    (still_awaited rfl) (fun e x there => Or.inl there) fun e new => ?_
  · simp only [Service.tell, Linearizability.Trace.inner_append, h.inner]
    cases news <;> simp [Linearizability.Trace.inner]
  · obtain ⟨e₀, there, rfl⟩ := Option.mem_map.mp new
    exact admits_later later (admits e₀ there)

/-- The loop goes on, or the operation returns. Its source is there if the result decides it. -/
theorem consistent_conclude (h : sys.Consistent d) {k attempt : Nat} {op : Operation}
    {target : String} {heard : Heard} {source : Option (Nat × OpId)} (here : sys.ops k = some op)
    (running : op.state.attempt = some (attempt, target))
    (decides : ∀ a, Answer.ofRequest heard.result = some a → ∃ src out, source = some src ∧
      sys.Attempt d k src ∧ .inr (.respond src out) ∈ sys.trace ∧ a = Answer.ofResponse out) :
    (sys.conclude k op attempt target heard source).Consistent d := by
  have undecided (src : Nat × OpId) : op.source ≠ some src := fun told => by
    rw [h.tidy.sources k op src here told] at running
    cases running
  rw [Service.conclude]
  have ready := consistent_clients h
    (Function.update sys.clients op.client
      ((sys.clients op.client).afterRequest op.request.key attempt target heard).1)
  cases done : ((sys.clients op.client).afterRequest op.request.key attempt target heard).2 with
  | again next =>
      exact consistent_setOp ready here ⟨rfl, rfl, fun _ h => h, fun _ h => h⟩ rfl
        (fun src told => absurd told (undecided src)) fun _ _ _ no => by cases no
  | done result =>
      have kept : op.Kept { op with state := .returned result, source } :=
        ⟨rfl, rfl, fun _ h => h, fun src told => absurd told (undecided src)⟩
      have later : sys.Later (sys.setOp k { op with state := .returned result, source }) :=
        later_setOp here kept
      refine consistent_tell (consistent_setOp ready here kept rfl (fun _ _ => rfl)
        fun _ _ _ no => by cases no) _ fun e told => ?_
      obtain ⟨a, result', rfl⟩ := Option.mem_map.mp told
      obtain ⟨src, out, source', made, responded, seen⟩ :=
        decides a (afterRequest_done done result')
      exact ⟨_, src, out, Function.update_self .., source', attempt_later later made, responded, seen⟩

end Callers

section Handlers

theorem sound_phase {x : HttpExchange ID} (h : x.Sound d sys) {phase : Phase}
    (sound : phase.Sound d sys x.op) : { x with phase }.Sound d sys :=
  ⟨h.owner, sound⟩

/-- The IDs at hand make one ID. -/
theorem firstNonEmpty_carried {a b name : String} (nonempty : name ≠ "") (first : a = "" ∨ a = name)
    (second : b = "" ∨ b = name) : Server.firstNonEmpty [a, b, name] = name := by
  cases first with
  | inr own => simp [Server.firstNonEmpty, own, nonempty]
  | inl no =>
      cases second with
      | inr own => simp [Server.firstNonEmpty, no, own, nonempty]
      | inl no' => simp [Server.firstNonEmpty, no, no', nonempty]

/-- What a node makes of a request for an operation. -/
structure Operation.Makes (d : Deployment ID) (op : Operation) (edit : Server.Edit) (cmd : Command)
    (w : Write) : Prop where
  method : op.request.method = .edit edit
  key : cmd.key = op.request.key
  id : cmd.requestId = op.requestId
  means : op.meaning d = some (.write w)

variable {e s : Nat} {x : HttpExchange ID} {op : Operation} {edit : Server.Edit} {cmd : Command}
  {w : Write}

theorem makes_of_command (h : sys.Consistent d) (exchange : sys.exchanges e = some x)
    (here : sys.ops x.op = some op) (method : x.request.method = .edit edit)
    (command : d.gateway.command x.request.key x.request.headerId op.requestId edit = .ok cmd)
    (means : cmd.write = some w) : op.Makes d edit cmd w := by
  obtain ⟨op₀, here₀, key, same, carries⟩ := (h.exchanges e x exchange).2.owner
  cases here.symm.trans here₀
  refine ⟨same.symm.trans method, (Server.command_key command).trans key, ?_, ?_⟩
  · rw [Server.command_id command]
    exact firstNonEmpty_carried (h.tidy.known x.op op here).2.1 (carries.1 edit method) carries.2
  · rw [Operation.meaning, ← key, ← same, method, ← Server.command_meaning command, means]
    rfl

/-- A step of a shard that begins a call. -/
theorem later_begin {c : Cluster ID} {call : NodeCall ID}
    (calls : c.calls = Function.update (sys.servers.calls s) (sys.servers.nextId s) (some call))
    (nextId : c.nextId = sys.servers.nextId s + 1) : sys.Later (sys.setShard s c) := by
  refine later_setShard (nextId ▸ Nat.le_succ _) fun i call' taken there => ?_
  rw [calls, Function.update_of_ne (Nat.ne_of_lt taken)] at there
  exact ⟨call', there, rfl⟩

theorem consistent_write (h : sys.Consistent d) (exchange : sys.exchanges e = some x)
    (here : sys.ops x.op = some op) (makes : op.Makes d edit cmd w)
    (shard : s = forKey cmd.key d.numShards) (now : Int) :
    ((sys.setShard s (.write (sys.servers.cluster s) x.node cmd w now)).setExchange e
      { x with phase := .calling s (sys.servers.nextId s) cmd.requestId }).Consistent d := by
  generalize made : Cluster.write (sys.servers.cluster s) x.node cmd w now = c
  have attempt : sys.Attempt d x.op (s, .write cmd.requestId) :=
    ⟨op, edit, here, makes.method, makes.id.symm, makes.key ▸ shard⟩
  obtain ⟨calls, nextId, news, grown, new⟩ :
      c.calls = Function.update (sys.servers.calls s) (sys.servers.nextId s)
          (some ⟨x.node, .writing (cmd.stamp now)⟩) ∧
        c.nextId = sys.servers.nextId s + 1 ∧ ∃ news : Option ClientEvent,
          c.history = sys.servers.shardHistory s ++ news.toList ∧
            ∀ e ∈ news, e = .invoke (.write cmd.requestId) (.write w) := by
    subst made
    rw [Cluster.write, Cluster.invoke]
    split
    · exact ⟨rfl, rfl, none, (List.append_nil _).symm, fun _ no => by cases no⟩
    · exact ⟨rfl, rfl, some _, rfl, fun _ new => (Option.mem_some_iff.mp new).symm⟩
  have later : sys.Later (sys.setShard s c) := later_begin calls nextId
  have began := consistent_setShard h later news grown fun e there => by
    rw [new e there]
    exact ⟨x.op, attempt, h.announced x.op op _ here makes.means⟩
  refine consistent_setExchange began exchange rfl (sound_phase
    (sound_later later (h.exchanges e x exchange).2) ⟨⟨op, here, Or.inr makes.id⟩, _,
      attempt_later later attempt, ?_, fun call there => ?_⟩)
  · show _ < Function.update sys.servers.nextId s c.nextId s
    rw [Function.update_self, nextId]
    exact Nat.lt_succ_self _
  · change Function.update sys.servers.calls s c.calls s (sys.servers.nextId s) = some call at there
    rw [Function.update_self, calls, Function.update_self] at there
    cases there
    rfl

/-- A call of `Node.Get` gets the next number of its shard, which no operation has had. -/
theorem tidy_get (h : sys.Tidy) {k : Nat} (here : sys.ops k = some op) {sys₁ : Service ID}
    (ops : sys₁.ops = Function.update sys.ops k
      (some { op with reads := (s, sys.servers.nextId s) :: op.reads }))
    (nextOp : sys₁.nextOp = sys.nextOp)
    (nextId : ∀ s', sys.servers.nextId s' ≤ sys₁.servers.nextId s')
    (taken : sys.servers.nextId s < sys₁.servers.nextId s) : sys₁.Tidy := by
  have find {j : Nat} {o' : Operation} (there : sys₁.ops j = some o') :
      ∃ o, sys.ops j = some o ∧ o'.request = o.request ∧ o'.requestId = o.requestId ∧
        o'.source = o.source ∧ o'.state = o.state ∧
        ∀ x ∈ o'.reads, x ∈ o.reads ∨ j = k ∧ x = (s, sys.servers.nextId s) := by
    rw [ops] at there
    by_cases own : j = k
    · subst own
      rw [Function.update_self] at there
      cases there
      refine ⟨op, here, rfl, rfl, rfl, rfl, fun x made => ?_⟩
      exact (List.mem_cons.mp made).symm.imp (fun old => old) fun new => ⟨rfl, new⟩
    · rw [Function.update_of_ne own] at there
      exact ⟨o', there, rfl, rfl, rfl, rfl, fun x made => Or.inl made⟩
  have unused {j : Nat} {o : Operation} (there : sys.ops j = some o) :
      (s, sys.servers.nextId s) ∉ o.reads := fun made =>
    Nat.lt_irrefl _ (h.reads j o _ there made).1
  refine ⟨fun j o' there => ?_, fun j j' o' o'' there there' same => ?_,
    fun j o' x there made => ?_, fun j o' src there told => ?_⟩
  · obtain ⟨o, before, request, id, -⟩ := find there
    rw [request, id, nextOp]
    exact h.known j o before
  · obtain ⟨o, before, -, id, -⟩ := find there
    obtain ⟨o₂, before₂, -, id₂, -⟩ := find there'
    exact h.distinct j j' o o₂ before before₂ (id ▸ id₂ ▸ same)
  · obtain ⟨o, before, -, -, -, -, reads⟩ := find there
    cases reads x made with
    | inl old =>
        obtain ⟨bound, others⟩ := h.reads j o x before old
        refine ⟨bound.trans_le (nextId x.1), fun j' o'' there' made' => ?_⟩
        obtain ⟨o₂, before₂, -, -, -, -, reads₂⟩ := find there'
        cases reads₂ x made' with
        | inl old' => exact others j' o₂ before₂ old'
        | inr new' => exact absurd (new'.2 ▸ old) (unused before)
    | inr new =>
        obtain ⟨rfl, rfl⟩ := new
        refine ⟨taken, fun j' o'' there' made' => ?_⟩
        obtain ⟨o₂, before₂, -, -, -, -, reads₂⟩ := find there'
        cases reads₂ _ made' with
        | inl old' => exact absurd old' (unused before₂)
        | inr new' => exact new'.1
  · obtain ⟨o, before, -, -, source, state, -⟩ := find there
    rw [state]
    exact h.sources j o src before (source ▸ told)

theorem consistent_get (h : sys.Consistent d) (exchange : sys.exchanges e = some x)
    (here : sys.ops x.op = some op) (method : x.request.method = .get) :
    (((sys.setShard s (.get (sys.servers.cluster s) x.node x.request.key)).setExchange e
      { x with phase := .calling s (sys.servers.nextId s) "" }).setOp x.op
      { op with reads := (s, sys.servers.nextId s) :: op.reads }).Consistent d := by
  obtain ⟨op₀, here₀, key, same, -⟩ := (h.exchanges e x exchange).2.owner
  cases here.symm.trans here₀
  let i := sys.servers.nextId s
  let op' : Operation := { op with reads := (s, i) :: op.reads }
  let c := Cluster.get (sys.servers.cluster s) x.node x.request.key
  let sys₁ := (sys.setShard s c).setOp x.op op'
  have kept : op.Kept op' := ⟨rfl, rfl, fun _ made => List.mem_cons_of_mem _ made, fun _ h => h⟩
  have later : sys.Later sys₁ := later_trans (later_begin rfl rfl) (later_setOp here kept)
  have taken : i < sys₁.servers.nextId s := by
    show _ < Function.update sys.servers.nextId s _ s
    rw [Function.update_self]
    exact Nat.lt_succ_self _
  have attempt : sys₁.Attempt d x.op (s, .get i) :=
    ⟨op', Function.update_self .., same.symm.trans method, List.mem_cons_self ..⟩
  have drops : c.history.drop (sys.servers.shardHistory s).length =
      [.invoke (.get i) (.get x.request.key)] := List.drop_left
  have means : op.meaning d = some (.get x.request.key) := by
    rw [Operation.meaning, ← same, method, ← key]
    rfl
  have began : sys₁.Consistent d := by
    refine consistent_later later h (some (.inr (.invoke (s, .get i) (.get x.request.key)))) ?_ ?_
      (tidy_get h.tidy here rfl rfl later.nextId taken) (fun k o r there meant => ?_)
      (fun k o there => ?_) (fun f y there => Or.inl there) fun f new => ?_
    · simp only [sys₁, Service.setOp, Service.setShard, drops]
      rfl
    · simp only [sys₁, Service.setOp, Service.setShard, MultiRaft.setCluster, drops,
        Linearizability.Trace.inner_append, h.inner]
      rfl
    · by_cases own : k = x.op
      · subst own
        cases (Function.update_self ..).symm.trans there
        exact announced_later later h here kept meant
      · have before : sys.ops k = some o := (Function.update_of_ne own _ _).symm.trans there
        exact later.trace.subset (h.announced k o r before meant)
    · by_cases own : k = x.op
      · subst own
        cases (Function.update_self ..).symm.trans there
        exact Or.inl ⟨op, here, rfl⟩
      · exact Or.inl ⟨o, (Function.update_of_ne own _ _).symm.trans there, rfl⟩
    · cases new
      exact ⟨x.op, attempt, h.announced x.op op _ here means⟩
  have sound := sound_later later (h.exchanges e x exchange).2
  have goes : Phase.Sound d sys₁ x.op (.calling s i "") := by
    refine ⟨⟨op', Function.update_self .., Or.inl rfl⟩, _, attempt, taken, fun call there => ?_⟩
    change Function.update sys.servers.calls s c.calls s i = some call at there
    rw [Function.update_self] at there
    change Function.update (sys.servers.calls s) i _ i = some call at there
    rw [Function.update_self] at there
    cases there
    rfl
  exact consistent_setExchange began exchange rfl (sound_phase sound goes)

/-- A step of a shard that ends a call. -/
theorem consistent_end (h : sys.Consistent d) {i : Nat} {c : Cluster ID}
    (calls : c.calls = Function.update (sys.servers.calls s) i none)
    (nextId : c.nextId = sys.servers.nextId s) (news : Option (OpId × Response))
    (grown : c.history =
      sys.servers.shardHistory s ++ (news.map fun e => .respond e.1 e.2).toList) :
    sys.Later (sys.setShard s c) ∧ (sys.setShard s c).Consistent d ∧
      ∀ name out, news = some (name, out) →
        .inr (.respond (s, name) out) ∈ (sys.setShard s c).trace := by
  have later : sys.Later (sys.setShard s c) := by
    refine later_setShard nextId.ge fun j call taken there => ?_
    rw [calls] at there
    by_cases own : j = i
    · rw [own, Function.update_self] at there
      cases there
    · rw [Function.update_of_ne own] at there
      exact ⟨call, there, rfl⟩
  refine ⟨later, consistent_setShard h later _ grown fun e there => ?_, fun name out told => ?_⟩
  · obtain ⟨⟨name, out⟩, -, rfl⟩ := Option.mem_map.mp there
    trivial
  · subst told
    refine List.mem_append_right _ ?_
    rw [grown, List.drop_left]
    exact List.mem_singleton.mpr rfl

/-- What is known of a request whose call is under way. -/
theorem calling_attempt (h : sys.Consistent d) {i : Nat} {id : String} {call : NodeCall ID}
    (exchange : sys.exchanges e = some x) (phase : x.phase = .calling s i id)
    (there : sys.servers.calls s i = some call) :
    sys.Attempt d x.op (s, call.progress.op i) := by
  have sound := (h.exchanges e x exchange).2.phase
  rw [phase] at sound
  obtain ⟨-, name, made, -, calls⟩ := sound
  rw [calls call there]
  exact made

/-- The node answers with what the shard has told it. -/
theorem consistent_answer (h : sys.Consistent d) {i : Nat} {id : String} {call : NodeCall ID}
    {out : Response} {reply : Reply} (exchange : sys.exchanges e = some x)
    (phase : x.phase = .calling s i id) (there : sys.servers.calls s i = some call)
    (told : Answer.ofReply reply = some (.ofResponse out)) :
    ((sys.setShard s (((sys.servers.cluster s).setCall i none).record
      (.respond (call.progress.op i) out))).setExchange e
      { x with phase := .answered reply (some (s, call.progress.op i)) }).Consistent d := by
  obtain ⟨later, ended, recorded⟩ := consistent_end h
    (c := ((sys.servers.cluster s).setCall i none).record (.respond (call.progress.op i) out)) rfl rfl
    (some (call.progress.op i, out)) rfl
  refine consistent_setExchange ended exchange rfl (sound_phase
    (sound_later later (h.exchanges e x exchange).2) fun answer decided => ?_)
  rw [told] at decided
  exact ⟨_, out, rfl, attempt_later later (calling_attempt h exchange phase there),
    recorded _ out rfl, Option.some.inj decided⟩

/-- An answer that decides nothing. -/
theorem sound_undecided {reply : Reply} {source : Option (Nat × OpId)} {k : Nat}
    (undecided : Answer.ofReply reply = none) : Phase.Sound d sys k (.answered reply source) := by
  intro answer decided
  rw [undecided] at decided
  cases decided

theorem error_undecided {cfg : Server.Config} {request : KvRequest} {err : Server.RaftError}
    {hop : Hop} {shard : Option Nat}
    (h : cfg.forwardURL request.toRouting err = none ∨ ∀ resp, hop ≠ .answered resp) :
    Answer.ofReply (cfg.errorReply request err hop shard) = none := by
  refine Option.eq_none_iff_forall_ne_some.mpr fun answer decided => ?_
  obtain ⟨⟨url, forwards⟩, resp, answered, -⟩ := ofReply_error decided
  cases h with
  | inl stays =>
      rw [stays] at forwards
      cases forwards
  | inr lost => exact lost resp answered

theorem consistent_failed (h : sys.Consistent d) {i : Nat} {reply : Reply}
    (exchange : sys.exchanges e = some x) (undecided : Answer.ofReply reply = none) :
    ((sys.setShard s ((sys.servers.cluster s).setCall i none)).setExchange e
      { x with phase := .answered reply none }).Consistent d := by
  obtain ⟨later, ended, -⟩ := consistent_end h (c := (sys.servers.cluster s).setCall i none) rfl rfl
    none (List.append_nil _).symm
  exact consistent_setExchange ended exchange rfl (sound_phase
    (sound_later later (h.exchanges e x exchange).2) (sound_undecided undecided))

theorem consistent_forward (h : sys.Consistent d) {i : Nat} {id : String} (err : Server.RaftError)
    (url : String) (exchange : sys.exchanges e = some x) (phase : x.phase = .calling s i id) :
    (((sys.setShard s ((sys.servers.cluster s).setCall i none)).send d x.op url
      (x.request.forward id)).setExchange e
      { x with phase := .forwarding err sys.nextExchange }).Consistent d := by
  obtain ⟨later, ended, -⟩ := consistent_end h (c := (sys.servers.cluster s).setCall i none) rfl rfl
    none (List.append_nil _).symm
  obtain ⟨bound, sound⟩ := h.exchanges e x exchange
  obtain ⟨op, here, key, method, carries⟩ := sound.owner
  have named : id = "" ∨ id = op.requestId := by
    have calling := sound.phase
    rw [phase] at calling
    obtain ⟨⟨op₀, here₀, named⟩, -⟩ := calling
    cases here.symm.trans here₀
    exact named
  have sent := consistent_send ended url here
    (show (x.request.forward id).key = op.request.key from key) method ⟨carries.1, named⟩
  have goes := later_trans later (later_send d x.op url (x.request.forward id))
  have still : ((sys.setShard s ((sys.servers.cluster s).setCall i none)).send d x.op url
      (x.request.forward id)).exchanges e = some x :=
    (Function.update_of_ne (Nat.ne_of_lt bound) _ _).trans exchange
  exact consistent_setExchange sent still rfl (sound_phase (sound_later goes sound)
    ⟨Nat.lt_succ_self _, fun y there => send_op there⟩)

theorem consistent_relay (h : sys.Consistent d) {next : Nat} {y : HttpExchange ID}
    {err : Server.RaftError} {reply : Reply} {source : Option (Nat × OpId)}
    (exchange : sys.exchanges e = some x) (phase : x.phase = .forwarding err next)
    (other : sys.exchanges next = some y) (answered : y.phase = .answered reply source)
    (cfg : Server.Config) :
    (sys.setExchange e
      { x with
        phase := .answered
          (cfg.errorReply x.request err (.answered reply.toResponse) reply.shard) source }).Consistent
      d := by
  have sound := (h.exchanges e x exchange).2
  have passed := (h.exchanges next y other).2.phase
  have same : y.op = x.op := by
    have forwarding := sound.phase
    rw [phase] at forwarding
    exact forwarding.2 y other
  rw [answered, same] at passed
  refine consistent_setExchange h exchange rfl (sound_phase sound fun answer decided => ?_)
  obtain ⟨-, resp, eq, told⟩ := ofReply_error decided
  cases eq
  exact passed answer told

end Handlers

section Steps

variable [DecidableEq ID] {cfg : Config ID} {codecs : Codecs} {window : Nat} {T : Transport}

theorem consistent_restart (h : sys.Consistent d) (n : ID) (replicas : Nat → Process ID Store) :
    (sys.restart n replicas).Consistent d := by
  have later : sys.Later (sys.restart n replicas) := by
    refine ⟨fun k op here => ⟨op, here, kept_refl op⟩, List.prefix_rfl, fun s => Nat.le_refl _,
      fun s i call taken there => ?_, Nat.le_refl _, fun e y bound there => ?_⟩
    · exact ⟨call, (Option.filter_eq_some_iff.mp there).1, rfl⟩
    · exact ⟨y, (Option.filter_eq_some_iff.mp there).1, rfl⟩
  exact consistent_later later h none (by simp [Service.restart]) h.inner
    (tidy_same h.tidy rfl rfl fun s => Nat.le_refl _) h.announced (still_awaited rfl)
    (fun e x there => Or.inl (Option.filter_eq_some_iff.mp there).1) fun _ no => by cases no

theorem step_nextId {c c' : Cluster ID} (step : Cluster.Step cfg codecs window T c c') :
    c.nextId ≤ c'.nextId := by
  cases step with
  | write =>
      rw [Cluster.invoke]
      split
      · exact Nat.le_succ _
      · exact Nat.le_succ _
  | get | ask => exact Nat.le_succ _
  | node | crash | propose | wrote | notReady | confirm | got | giveUp => exact Nat.le_refl _

theorem step_consistent (h : sys.Consistent d) (step : Service.Step cfg codecs window T d sys sys') :
    sys'.Consistent d := by
  cases step with
  | start fresh nonempty carries once => exact consistent_start h fresh nonempty carries
  | @send k attempt op target here state left =>
      have undecided (src : Nat × OpId) : op.source ≠ some src := fun told => by
        have returned := h.tidy.sources k op src here told
        rw [state] at returned
        cases returned
      have sent := consistent_send h target here rfl rfl (h.tidy.known k op here).2.2
      refine consistent_setOp sent here ⟨rfl, rfl, fun _ h => h, fun _ h => h⟩ rfl
        (fun src told => absurd told (undecided src)) fun _ _ e waits => ?_
      cases waits
      exact ⟨Nat.lt_succ_self _, fun x there => send_op there⟩
  | @giveUp k attempt op target here state spent =>
      exact consistent_setOp h here ⟨rfl, rfl, fun _ h => h, fun _ h => h⟩ rfl (fun _ _ => rfl)
        fun _ _ _ no => by cases no
  | lost here state result =>
      refine consistent_conclude h here state fun a decided => ?_
      rw [result] at decided
      cases decided
  | @receive k attempt e op target x reply source heard here state exchange phase result header =>
      refine consistent_conclude h here (by rw [state]; rfl) fun a decided => ?_
      have own : x.op = k := (h.awaited k op here attempt target e state).2 x exchange
      have sound := (h.exchanges e x exchange).2.phase
      rw [phase, own] at sound
      rw [result] at decided
      obtain ⟨src, out, source', made, responded, seen⟩ := sound a decided
      exact ⟨src, out, source', made, responded, seen.symm⟩
  | write exchange phase method here command means shard =>
      exact consistent_write h exchange here (makes_of_command h exchange here method command means)
        shard _
  | refuse exchange phase method command =>
      exact consistent_setExchange h exchange rfl (sound_phase (h.exchanges _ _ exchange).2
        (sound_undecided (ofReply_refused command)))
  | get exchange phase method here shard => exact consistent_get h exchange here method
  | wrote hosted exchange phase call told own decoded =>
      exact consistent_answer h exchange phase call (ofReply_wrote _ _)
  | got hosted exchange phase call read =>
      exact consistent_answer h exchange phase call (ofReply_got _)
  | failed hosted exchange phase stays =>
      exact consistent_failed h exchange (error_undecided (Or.inl stays))
  | forward hosted exchange phase forwards => exact consistent_forward h _ _ exchange phase
  | relay exchange phase other answered =>
      exact consistent_relay h exchange phase other answered _
  | hopLost exchange phase lost =>
      exact consistent_setExchange h exchange rfl (sound_phase (h.exchanges _ _ exchange).2
        (sound_undecided (error_undecided (Or.inr lost))))
  | @serve s c hosted step silent calls =>
      have later : sys.Later (sys.setShard s c) :=
        later_setShard (step_nextId step) fun i call _ there => calls i call there
      exact consistent_setShard h later none (silent.trans (List.append_nil _).symm) fun _ no => by
        cases no
  | crash restarts => exact consistent_restart h _ _

end Steps
end EdgeKV
