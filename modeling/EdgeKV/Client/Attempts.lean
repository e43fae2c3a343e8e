import EdgeKV.Client.Service

/-!
What holds of the whole system in every state: each request at a node and each operation of a
shard is made for one operation of a caller, by the ID that it goes by or by the call that it
is, and an answer that decides an operation tells of an operation of a shard that was made for
it and had been answered before.
-/
namespace EdgeKV

open Linearizability (Event Trace)
open Server (KvRequest Method Hop Reply)
open Client (Out DoError Heard)

variable {ID : Type} {d : Deployment ID} {sys sys' : Service ID}

/-- What the result of a request decides about the operation. -/
def Answer.ofRequest : Except Client.RequestError Out → Option Answer
  | .ok (.version v) => some (.version v)
  | .ok (.entry value v) => some (.entry value v)
  | .error .notFound => some .notFound
  | .error .versionMismatch => some .versionMismatch
  | .error _ => none

def Answer.ofReply (reply : Reply) : Option Answer := Answer.ofRequest (Client.request reply)

/-- What the request of an operation asks of the store. -/
def Operation.meaning (d : Deployment ID) (op : Operation) : Option Request :=
  d.gateway.meaning op.request.key op.request.method

section Definitions

/-- The operation of a shard is made for operation `k`. -/
def Service.Attempt (d : Deployment ID) (sys : Service ID) (k : Nat) : Nat × OpId → Prop
  | (s, .write id) => ∃ op edit, sys.ops k = some op ∧ op.request.method = .edit edit ∧
      op.requestId = id ∧ s = forKey op.request.key d.numShards
  | (s, .get i) => ∃ op, sys.ops k = some op ∧ op.request.method = .get ∧ (s, i) ∈ op.reads

/-- What is true of a request at a node, made for operation `k`, at some point of its life. -/
def Phase.Sound (d : Deployment ID) (sys : Service ID) (k : Nat) : Phase → Prop
  | .arrived => True
  | .calling s i id =>
      (∃ op, sys.ops k = some op ∧ (id = "" ∨ id = op.requestId)) ∧
        ∃ name, sys.Attempt d k (s, name) ∧ i < sys.servers.nextId s ∧
          ∀ call, sys.servers.calls s i = some call → call.progress.op i = name
  | .forwarding _ next =>
      next < sys.nextExchange ∧ ∀ y, sys.exchanges next = some y → y.op = k
  | .answered reply source => ∀ answer, Answer.ofReply reply = some answer →
      ∃ src out, source = some src ∧ sys.Attempt d k src ∧ .inr (.respond src out) ∈ sys.trace ∧
        Answer.ofResponse out = answer

structure HttpExchange.Sound (d : Deployment ID) (sys : Service ID) (x : HttpExchange ID) :
    Prop where
  owner : ∃ op, sys.ops x.op = some op ∧ x.request.key = op.request.key ∧
    x.request.method = op.request.method ∧ x.request.Carries op.requestId
  phase : x.phase.Sound d sys x.op

/-- When an event may come after those of `before`. -/
def Service.Admits (d : Deployment ID) (sys : Service ID)
    (before : Trace Nat (Nat × OpId) Request Answer Response) :
    Event Nat Request Answer ⊕ ShardEvent → Prop
  | .inl (.invoke k r) => (∃ op, sys.ops k = some op ∧ op.meaning d = some r) ∧
      ∀ x r', .inr (.invoke x r') ∈ before → ∃ k' ≠ k, sys.Attempt d k' x
  | .inl (.respond k a) => ∃ op src out, sys.ops k = some op ∧ op.source = some src ∧
      sys.Attempt d k src ∧ .inr (.respond src out) ∈ before ∧ a = Answer.ofResponse out
  | .inr (.invoke x r) => ∃ k, sys.Attempt d k x ∧ .inl (.invoke k r) ∈ before
  | .inr (.respond _ _) => True

/-- The operations of the callers, each with an ID and calls of its own. -/
structure Service.Tidy (sys : Service ID) : Prop where
  known : ∀ k op, sys.ops k = some op → k < sys.nextOp ∧ op.requestId ≠ "" ∧
    op.request.Carries op.requestId
  distinct : ∀ k k' op op', sys.ops k = some op → sys.ops k' = some op' →
    op.requestId = op'.requestId → k = k'
  reads : ∀ k op x, sys.ops k = some op → x ∈ op.reads → x.2 < sys.servers.nextId x.1 ∧
    ∀ k' op', sys.ops k' = some op' → x ∈ op'.reads → k' = k
  sources : ∀ k op src, sys.ops k = some op → op.source = some src → op.state.attempt = none

/-- The request that operation `k` waits for was made for it. -/
def Operation.Awaits (sys : Service ID) (k : Nat) (op : Operation) : Prop :=
  ∀ attempt target e, op.state = .waiting attempt target e →
    e < sys.nextExchange ∧ ∀ x, sys.exchanges e = some x → x.op = k

structure Service.Consistent (d : Deployment ID) (sys : Service ID) : Prop where
  inner : sys.trace.inner = sys.servers.history
  tidy : sys.Tidy
  announced : ∀ k op r, sys.ops k = some op → op.meaning d = some r →
    .inl (.invoke k r) ∈ sys.trace
  awaited : ∀ k op, sys.ops k = some op → op.Awaits sys k
  exchanges : ∀ e x, sys.exchanges e = some x → e < sys.nextExchange ∧ x.Sound d sys
  admitted : ∀ before e, before ++ [e] <+: sys.trace → sys.Admits d before e

/-- An operation that stays what it is. -/
structure Operation.Kept (op op' : Operation) : Prop where
  request : op'.request = op.request
  requestId : op'.requestId = op.requestId
  reads : op.reads ⊆ op'.reads
  source : ∀ src, op.source = some src → op'.source = some src

/-- What every step leaves in place. -/
structure Service.Later (sys sys' : Service ID) : Prop where
  ops : ∀ k op, sys.ops k = some op → ∃ op', sys'.ops k = some op' ∧ op.Kept op'
  trace : sys.trace <+: sys'.trace
  nextId : ∀ s, sys.servers.nextId s ≤ sys'.servers.nextId s
  calls : ∀ s i call', i < sys.servers.nextId s → sys'.servers.calls s i = some call' →
    ∃ call, sys.servers.calls s i = some call ∧ call'.progress.op i = call.progress.op i
  nextExchange : sys.nextExchange ≤ sys'.nextExchange
  exchanges : ∀ e y', e < sys.nextExchange → sys'.exchanges e = some y' →
    ∃ y, sys.exchanges e = some y ∧ y'.op = y.op

end Definitions

section Later

theorem attempt_later (later : sys.Later sys') {k : Nat} {x : Nat × OpId}
    (h : sys.Attempt d k x) : sys'.Attempt d k x := by
  obtain ⟨s, name⟩ := x
  cases name with
  | write id =>
      obtain ⟨op, edit, here, method, named, shard⟩ := h
      obtain ⟨op', here', request, id', -, -⟩ := later.ops k op here
      exact ⟨op', edit, here', request ▸ method, id'.trans named, request ▸ shard⟩
  | get i =>
      obtain ⟨op, here, method, made⟩ := h
      obtain ⟨op', here', request, -, reads, -⟩ := later.ops k op here
      exact ⟨op', here', request ▸ method, reads made⟩

theorem sound_later (later : sys.Later sys') {x : HttpExchange ID} (h : x.Sound d sys) :
    x.Sound d sys' := by
  obtain ⟨⟨op, here, key, method, carries⟩, phase⟩ := h
  obtain ⟨op', here', request, id, -, -⟩ := later.ops x.op op here
  refine ⟨⟨op', here', request ▸ key, request ▸ method, id ▸ carries⟩, ?_⟩
  revert phase
  cases x.phase with
  | arrived => exact fun _ => trivial
  | calling s i named =>
      rintro ⟨⟨op₁, same, carried⟩, name, made, taken, calls⟩
      cases here.symm.trans same
      refine ⟨⟨op', here', id ▸ carried⟩, name, attempt_later later made,
        taken.trans_le (later.nextId s), fun call' there => ?_⟩
      obtain ⟨call, there₀, progress⟩ := later.calls s i call' taken there
      exact progress.trans (calls call there₀)
  | forwarding err next =>
      rintro ⟨bound, others⟩
      refine ⟨bound.trans_le later.nextExchange, fun y' there => ?_⟩
      obtain ⟨y, there₀, same⟩ := later.exchanges next y' bound there
      exact same.trans (others y there₀)
  | answered reply source =>
      intro told answer eq
      obtain ⟨src, out, source', made, responded, seen⟩ := told answer eq
      exact ⟨src, out, source', attempt_later later made, later.trace.subset responded, seen⟩

theorem admits_later (later : sys.Later sys')
    {before : Trace Nat (Nat × OpId) Request Answer Response}
    {e : Event Nat Request Answer ⊕ ShardEvent} (h : sys.Admits d before e) :
    sys'.Admits d before e := by
  rcases e with (⟨k, r⟩ | ⟨k, a⟩) | (⟨x, r⟩ | ⟨x, out⟩)
  · obtain ⟨⟨op, here, means⟩, others⟩ := h
    obtain ⟨op', here', request, -, -, -⟩ := later.ops k op here
    refine ⟨⟨op', here', by rw [Operation.meaning, request]; exact means⟩, fun x r' there => ?_⟩
    obtain ⟨k', differ, made⟩ := others x r' there
    exact ⟨k', differ, attempt_later later made⟩
  · obtain ⟨op, src, out, here, source, made, responded, seen⟩ := h
    obtain ⟨op', here', -, -, -, kept⟩ := later.ops k op here
    exact ⟨op', src, out, here', kept src source, attempt_later later made, responded, seen⟩
  · obtain ⟨k, made, asked⟩ := h
    exact ⟨k, attempt_later later made, asked⟩
  · trivial

theorem awaits_later (later : sys.Later sys') {k : Nat} {op op' : Operation} (h : op.Awaits sys k)
    (same : op'.state = op.state) : op'.Awaits sys' k := by
  intro attempt target e state
  obtain ⟨bound, made⟩ := h attempt target e (same.symm.trans state)
  refine ⟨bound.trans_le later.nextExchange, fun x' there => ?_⟩
  obtain ⟨x, there₀, op⟩ := later.exchanges e x' bound there
  exact op.trans (made x there₀)

/-- A step that adds at most one event to the trace. -/
theorem consistent_later (later : sys.Later sys') (h : sys.Consistent d)
    (news : Option (Event Nat Request Answer ⊕ ShardEvent))
    (trace : sys'.trace = sys.trace ++ news.toList)
    (inner : sys'.trace.inner = sys'.servers.history) (tidy : sys'.Tidy)
    (announced : ∀ k op r, sys'.ops k = some op → op.meaning d = some r →
      .inl (.invoke k r) ∈ sys'.trace)
    (awaited : ∀ k op, sys'.ops k = some op →
      (∃ op₀, sys.ops k = some op₀ ∧ op.state = op₀.state) ∨ op.Awaits sys' k)
    (exchanges : ∀ e x, sys'.exchanges e = some x →
      sys.exchanges e = some x ∨ e < sys'.nextExchange ∧ x.Sound d sys')
    (admits : ∀ e ∈ news, sys'.Admits d sys.trace e) : sys'.Consistent d := by
  refine ⟨inner, tidy, announced, fun k op here => ?_, fun e x there => ?_,
    fun before e there => ?_⟩
  · cases awaited k op here with
    | inl old =>
        obtain ⟨op₀, here₀, same⟩ := old
        exact awaits_later later (h.awaited k op₀ here₀) same
    | inr new => exact new
  · cases exchanges e x there with
    | inl old =>
        obtain ⟨bound, sound⟩ := h.exchanges e x old
        exact ⟨bound.trans_le later.nextExchange, sound_later later sound⟩
    | inr new => exact new
  · rw [trace] at there
    cases news with
    | none =>
        rw [Option.toList_none, List.append_nil] at there
        exact admits_later later (h.admitted before e there)
    | some new =>
        rw [Option.toList_some, List.prefix_concat_iff] at there
        cases there with
        | inl now =>
            obtain ⟨rfl, same⟩ := List.append_inj' now rfl
            cases same
            exact admits e rfl
        | inr old => exact admits_later later (h.admitted before e old)

end Later

section Replies

variable {cfg : Server.Config} {request : KvRequest} {hop : Hop} {err : Server.RaftError}
  {shard : Option Nat}

/-- Only the status and the body count. -/
theorem ofReply_congr {reply reply' : Reply} (status : reply.status = reply'.status)
    (body : reply.body = reply'.body) : Answer.ofReply reply = Answer.ofReply reply' := by
  rw [Answer.ofReply, Answer.ofReply, Client.request, Client.request, status, body]

theorem ofReply_wrote (cmd : Command) (res : Result) :
    Answer.ofReply (cfg.wroteReply request cmd hop res) = some (.ofResponse (.wrote res)) := by
  obtain ⟨status, version⟩ := res
  cases status <;> rfl

theorem ofReply_got (entry : Option Store.Entry) :
    Answer.ofReply (cfg.gotReply request hop entry) =
      some (.ofResponse (.got (entry.map Store.Entry.read))) := by
  cases entry with
  | none => rfl
  | some e => rfl

/-- A node that cannot serve the request decides nothing, unless it passes on what another
node has answered. -/
theorem ofReply_handleRaftError {answer : Answer}
    (h : Answer.ofReply
      { toResponse := cfg.handleRaftError request.toRouting request.key hop err, shard } =
        some answer) :
    (∃ url, cfg.forwardURL request.toRouting err = some url) ∧
      ∃ resp, hop = .answered resp ∧
        Answer.ofReply { toResponse := resp, shard } = some answer := by
  cases err with
  | other detail => cases h
  | notLeader leader =>
      simp only [Server.Config.handleRaftError] at h
      split at h
      next forwards =>
        refine ⟨⟨cfg.peerHTTP leader, if_pos forwards⟩, ?_⟩
        cases hop with
        | answered resp => exact ⟨resp, rfl, h⟩
        | invalid detail => cases h
        | failed detail => cases h
      · cases h

theorem ofReply_withCacheControl (text : String) (resp : Server.Response) :
    Answer.ofReply { toResponse := resp.withCacheControl text, shard } =
      Answer.ofReply { toResponse := resp, shard } := by
  rw [Server.Response.withCacheControl]
  split
  · exact ofReply_congr rfl rfl
  · rfl

theorem ofReply_error {answer : Answer}
    (h : Answer.ofReply (cfg.errorReply request err hop shard) = some answer) :
    (∃ url, cfg.forwardURL request.toRouting err = some url) ∧
      ∃ resp, hop = .answered resp ∧
        Answer.ofReply { toResponse := resp, shard } = some answer := by
  rw [Server.Config.errorReply] at h
  split at h
  · exact ofReply_handleRaftError h
  · rw [Server.Config.handleGet, ofReply_withCacheControl] at h
    exact ofReply_handleRaftError h

/-- Refusals decide nothing. -/
theorem ofReply_refused {g : Server.Gateway} {key headerId newId : String} {e : Server.Edit}
    {resp : Server.Response} (h : g.command key headerId newId e = .error resp) :
    Answer.ofReply { toResponse := resp } = none := by
  cases e with
  | delete requestId => cases h
  | put body expectedVersion =>
      rw [Server.Gateway.command, Server.Gateway.handlePut] at h
      generalize first : Server.Gateway.expect expectedVersion _ = expected at h
      cases expected with
      | error early =>
          cases h
          rw [Server.Gateway.expect] at first
          split at first
          · cases first
          · split at first
            · cases first
              rfl
            · cases first
      | ok cmd =>
          change g.allowCaching body.cachePolicy cmd = .error resp at h
          rw [Server.Gateway.allowCaching] at h
          split at h
          · cases h
          · split at h
            · cases h
              rfl
            · cases h

end Replies

section Updates

theorem later_trans {sys'' : Service ID} (h : sys.Later sys') (h' : sys'.Later sys'') :
    sys.Later sys'' := by
  refine ⟨fun k op here => ?_, h.trace.trans h'.trace, fun s => (h.nextId s).trans (h'.nextId s),
    fun s i call taken there => ?_, h.nextExchange.trans h'.nextExchange,
    fun e y bound there => ?_⟩
  · obtain ⟨op', here', kept⟩ := h.ops k op here
    obtain ⟨op'', here'', kept'⟩ := h'.ops k op' here'
    exact ⟨op'', here'', kept'.request.trans kept.request, kept'.requestId.trans kept.requestId,
      fun _ made => kept'.reads (kept.reads made),
      fun src told => kept'.source src (kept.source src told)⟩
  · obtain ⟨call', there', same'⟩ := h'.calls s i call (taken.trans_le (h.nextId s)) there
    obtain ⟨call₀, there₀, same⟩ := h.calls s i call' taken there'
    exact ⟨call₀, there₀, same'.trans same⟩
  · obtain ⟨y', there', same'⟩ := h'.exchanges e y (bound.trans_le h.nextExchange) there
    obtain ⟨y₀, there₀, same⟩ := h.exchanges e y' bound there'
    exact ⟨y₀, there₀, same'.trans same⟩

theorem kept_refl (op : Operation) : op.Kept op := ⟨rfl, rfl, fun _ h => h, fun _ h => h⟩

theorem later_ops (h : ∀ k op, sys.ops k = some op → ∃ op', sys'.ops k = some op' ∧ op.Kept op')
    (trace : sys.trace <+: sys'.trace) (servers : sys'.servers = sys.servers)
    (exchanges : sys'.exchanges = sys.exchanges) (next : sys'.nextExchange = sys.nextExchange) :
    sys.Later sys' := by
  refine ⟨h, trace, fun s => by rw [servers], fun s i call taken there => ?_, next.ge,
    fun e y bound there => ?_⟩
  · rw [servers] at there
    exact ⟨call, there, rfl⟩
  · rw [exchanges] at there
    exact ⟨y, there, rfl⟩

theorem later_setOp {k : Nat} {op op' : Operation} (here : sys.ops k = some op)
    (kept : op.Kept op') : sys.Later (sys.setOp k op') := by
  refine later_ops (fun j other there => ?_) List.prefix_rfl rfl rfl rfl
  by_cases own : j = k
  · subst own
    cases here.symm.trans there
    exact ⟨op', by simp [Service.setOp], kept⟩
  · exact ⟨other, by simp [Service.setOp, Function.update_of_ne own, there], kept_refl other⟩

theorem later_setExchange {e : Nat} {x x' : HttpExchange ID} (there : sys.exchanges e = some x)
    (op : x'.op = x.op) : sys.Later (sys.setExchange e x') := by
  refine ⟨fun k op here => ⟨op, here, kept_refl op⟩, List.prefix_rfl, fun s => Nat.le_refl _,
    fun s i call taken there => ⟨call, there, rfl⟩, Nat.le_refl _, fun f y bound now => ?_⟩
  by_cases own : f = e
  · subst own
    simp only [Service.setExchange, Function.update_self, Option.some.injEq] at now
    exact ⟨x, there, now ▸ op⟩
  · simp only [Service.setExchange, Function.update_of_ne own] at now
    exact ⟨y, now, rfl⟩

theorem later_send (d : Deployment ID) (k : Nat) (url : String) (request : KvRequest) :
    sys.Later (sys.send d k url request) := by
  refine ⟨fun k op here => ⟨op, here, kept_refl op⟩, List.prefix_rfl, fun s => Nat.le_refl _,
    fun s i call taken there => ⟨call, there, rfl⟩, Nat.le_succ _, fun e y bound there => ?_⟩
  simp only [Service.send, Function.update_of_ne (Nat.ne_of_lt bound)] at there
  exact ⟨y, there, rfl⟩

theorem send_op {k : Nat} {url : String} {request : KvRequest} {x : HttpExchange ID}
    (there : (sys.send d k url request).exchanges sys.nextExchange = some x) : x.op = k := by
  simp only [Service.send, Function.update_self] at there
  obtain ⟨n, -, rfl⟩ := Option.map_eq_some_iff.mp there
  rfl

theorem later_setShard {s : Nat} {c : Cluster ID} (nextId : sys.servers.nextId s ≤ c.nextId)
    (calls : ∀ i call', i < sys.servers.nextId s → c.calls i = some call' →
      ∃ call, sys.servers.calls s i = some call ∧ call'.progress.op i = call.progress.op i) :
    sys.Later (sys.setShard s c) := by
  refine ⟨fun k op here => ⟨op, here, kept_refl op⟩, List.prefix_append _ _, fun s' => ?_,
    fun s' i call taken there => ?_, Nat.le_refl _, fun e y bound there => ⟨y, there, rfl⟩⟩
  · by_cases own : s' = s
    · subst own
      simpa [Service.setShard, MultiRaft.setCluster] using nextId
    · simp [Service.setShard, MultiRaft.setCluster, Function.update_of_ne own]
  · by_cases own : s' = s
    · subst own
      simp only [Service.setShard, MultiRaft.setCluster, Function.update_self] at there
      exact calls i call taken there
    · simp only [Service.setShard, MultiRaft.setCluster, Function.update_of_ne own] at there
      exact ⟨call, there, rfl⟩

/-- Nothing happens to the operations. -/
theorem tidy_same (h : sys.Tidy) (ops : sys'.ops = sys.ops) (nextOp : sys'.nextOp = sys.nextOp)
    (nextId : ∀ s, sys.servers.nextId s ≤ sys'.servers.nextId s) : sys'.Tidy := by
  refine ⟨?_, ?_, fun k op x here made => ?_, ?_⟩
  · rw [ops, nextOp]
    exact h.known
  · rw [ops]
    exact h.distinct
  · rw [ops] at here ⊢
    obtain ⟨bound, others⟩ := h.reads k op x here made
    exact ⟨bound.trans_le (nextId x.1), others⟩
  · rw [ops]
    exact h.sources

/-- The operations that wait are the same. -/
theorem still_awaited (ops : sys'.ops = sys.ops) (k : Nat) (op : Operation)
    (here : sys'.ops k = some op) :
    (∃ op₀, sys.ops k = some op₀ ∧ op.state = op₀.state) ∨ op.Awaits sys' k :=
  Or.inl ⟨op, ops ▸ here, rfl⟩

theorem consistent_setExchange (h : sys.Consistent d) {e : Nat} {x x' : HttpExchange ID}
    (there : sys.exchanges e = some x) (op : x'.op = x.op) (sound : x'.Sound d sys) :
    (sys.setExchange e x').Consistent d := by
  have later := later_setExchange there op
  refine consistent_later later h none (by simp [Service.setExchange]) h.inner
    (tidy_same h.tidy rfl rfl fun s => Nat.le_refl _) h.announced (still_awaited rfl)
    (fun f y now => ?_) fun _ no => by cases no
  by_cases own : f = e
  · subst own
    simp only [Service.setExchange, Function.update_self, Option.some.injEq] at now
    subst now
    exact Or.inr ⟨(h.exchanges f x there).1, sound_later later sound⟩
  · simp only [Service.setExchange, Function.update_of_ne own] at now
    exact Or.inl now

/-- A request is sent for an operation. -/
theorem consistent_send (h : sys.Consistent d) {k : Nat} {op : Operation} (url : String)
    {request : KvRequest} (here : sys.ops k = some op) (key : request.key = op.request.key)
    (method : request.method = op.request.method) (carries : request.Carries op.requestId) :
    (sys.send d k url request).Consistent d := by
  refine consistent_later (later_send d k url request) h none (by simp [Service.send]) h.inner
    (tidy_same h.tidy rfl rfl fun s => Nat.le_refl _) h.announced (still_awaited rfl)
    (fun e y now => ?_) fun _ no => by cases no
  by_cases own : e = sys.nextExchange
  · subst own
    simp only [Service.send, Function.update_self, Option.map_eq_some_iff] at now
    obtain ⟨n, -, rfl⟩ := now
    exact Or.inr ⟨Nat.lt_succ_self _, ⟨op, here, key, method, carries⟩, trivial⟩
  · simp only [Service.send, Function.update_of_ne own] at now
    exact Or.inl now

/-- What is true of each operation stays true when one of them goes on. -/
theorem tidy_setOp (h : sys.Tidy) {k : Nat} {op op' : Operation} (here : sys.ops k = some op)
    (kept : op.Kept op') (reads : op'.reads = op.reads)
    (source : ∀ src, op'.source = some src → op'.state.attempt = none) : (sys.setOp k op').Tidy := by
  have find {j : Nat} {o' : Operation} (there : (sys.setOp k op').ops j = some o') :
      ∃ o, sys.ops j = some o ∧ o'.request = o.request ∧ o'.requestId = o.requestId ∧
        o'.reads = o.reads := by
    by_cases own : j = k
    · subst own
      simp only [Service.setOp, Function.update_self, Option.some.injEq] at there
      subst there
      exact ⟨op, here, kept.request, kept.requestId, reads⟩
    · simp only [Service.setOp, Function.update_of_ne own] at there
      exact ⟨o', there, rfl, rfl, rfl⟩
  refine ⟨fun j o' there => ?_, fun j j' o' o'' there there' same => ?_,
    fun j o' x there made => ?_, fun j o' src there told => ?_⟩
  · obtain ⟨o, before, request, id, -⟩ := find there
    rw [request, id]
    exact h.known j o before
  · obtain ⟨o, before, -, id, -⟩ := find there
    obtain ⟨o₂, before₂, -, id₂, -⟩ := find there'
    exact h.distinct j j' o o₂ before before₂ (id ▸ id₂ ▸ same)
  · obtain ⟨o, before, -, -, reads⟩ := find there
    obtain ⟨bound, others⟩ := h.reads j o x before (reads ▸ made)
    refine ⟨bound, fun j' o'' there' made' => ?_⟩
    obtain ⟨o₂, before₂, -, -, reads₂⟩ := find there'
    exact others j' o₂ before₂ (reads₂ ▸ made')
  · by_cases own : j = k
    · subst own
      simp only [Service.setOp, Function.update_self, Option.some.injEq] at there
      subst there
      exact source src told
    · simp only [Service.setOp, Function.update_of_ne own] at there
      exact h.sources j o' src there told

theorem announced_later (later : sys.Later sys') (h : sys.Consistent d) {k : Nat}
    {op op' : Operation} (here : sys.ops k = some op) (kept : op.Kept op') {r : Request}
    (means : op'.meaning d = some r) : .inl (.invoke k r) ∈ sys'.trace := by
  rw [Operation.meaning, kept.request] at means
  exact later.trace.subset (h.announced k op r here means)

theorem consistent_setOp (h : sys.Consistent d) {k : Nat} {op op' : Operation}
    (here : sys.ops k = some op) (kept : op.Kept op') (reads : op'.reads = op.reads)
    (source : ∀ src, op'.source = some src → op'.state.attempt = none)
    (awaits : op'.Awaits sys k) : (sys.setOp k op').Consistent d := by
  have later := later_setOp here kept
  have find {j : Nat} {o : Operation} (there : (sys.setOp k op').ops j = some o) :
      j = k ∧ o = op' ∨ sys.ops j = some o := by
    by_cases own : j = k
    · subst own
      exact Or.inl ⟨rfl, Option.some.inj (there.symm.trans (Function.update_self ..))⟩
    · exact Or.inr ((Function.update_of_ne own _ _).symm.trans there)
  refine consistent_later later h none (by simp [Service.setOp]) h.inner
    (tidy_setOp h.tidy here kept reads source) (fun j o r there means => ?_)
    (fun j o there => ?_) (fun e x there => Or.inl there) fun _ no => by cases no
  · cases find there with
    | inl new =>
        obtain ⟨rfl, rfl⟩ := new
        exact announced_later later h here kept means
    | inr old => exact h.announced j o r old means
  · cases find there with
    | inl new =>
        obtain ⟨rfl, rfl⟩ := new
        exact Or.inr awaits
    | inr old => exact Or.inl ⟨o, old, rfl⟩

/-- A step of a shard, with at most one event for its clients. -/
theorem consistent_setShard (h : sys.Consistent d) {s : Nat} {c : Cluster ID}
    (later : sys.Later (sys.setShard s c)) (news : Option ClientEvent)
    (grown : c.history = sys.servers.shardHistory s ++ news.toList)
    (admits : ∀ e ∈ news, sys.Admits d sys.trace (.inr (e.relabel (s, ·)))) :
    (sys.setShard s c).Consistent d := by
  have drops : c.history.drop (sys.servers.shardHistory s).length = news.toList := by
    rw [grown, List.drop_left]
  refine consistent_later later h (news.map fun e => .inr (e.relabel (s, ·))) ?_ ?_
    (tidy_same h.tidy rfl rfl later.nextId)
    (fun k op r here means => later.trace.subset (h.announced k op r here means))
    (still_awaited rfl) (fun e x there => Or.inl there) fun e new => ?_
  · cases news <;> simp [Service.setShard, drops]
  · simp only [Service.setShard, MultiRaft.setCluster, drops, Linearizability.Trace.inner_append,
      h.inner]
    cases news <;> rfl
  · obtain ⟨e₀, there, rfl⟩ := Option.mem_map.mp new
    exact admits_later later (admits e₀ there)

end Updates
end EdgeKV
