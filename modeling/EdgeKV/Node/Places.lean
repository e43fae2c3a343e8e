import EdgeKV.Node.Stamps

/-!
Places along a log. All that was answered in a run has its place in one committed log:
a write where it first stands there, a read after the prefix that it saw. Along that
log the store takes the steps of the specification.
-/
namespace EdgeKV

open Consensus (CommittedBy Later)
open Linearizability (Event Point Precedes Carries)

variable {ID : Type} {codecs : Codecs} {window : Nat}

section Placement

variable (codecs window) (C : List Entry)

/-- The place in `C` of what was answered; what an invocation says about its stamp. -/
def Placed (stamped : Stamped ID) : ClientEvent → Abs ID → Prop
  | .invoke (.write id) _, b => ∀ t, ∀ e ∈ b.ledger t, e.requestId codecs ≠ some id
  | .invoke (.get _) _, _ => True
  | .respond (.write id) out, b =>
      ∃ k e bytes res t, C[k]? = some e ∧ e.requestId codecs = some id ∧
        Produces (Store.machine codecs window) (C.take k) e bytes ∧
        codecs.result.unmarshal bytes = some res ∧ out = .wrote res ∧
        CommittedBy b t (C.take (k + 1))
  | .respond (.get i) out, b =>
      ∃ k s key t, k ≤ C.length ∧ Reflects (Store.machine codecs window) s (C.take k) ∧
        out = .got ((s.get key).toOption.map Store.Entry.read) ∧
        .invoke (.get i) (.get key) ∈ stamped.map Prod.fst ∧ UpTo stamped i k ∧
        CommittedBy b t (C.take k)

variable {codecs window C}

theorem placed_mono {C' : List Entry} {stamped : Stamped ID} {x : ClientEvent} {b : Abs ID}
    (pre : C <+: C') (h : Placed codecs window C stamped x b) :
    Placed codecs window C' stamped x b := by
  have take {k : Nat} (le : k ≤ C.length) : C'.take k = C.take k :=
    Consensus.take_eq_of_common List.prefix_rfl pre (le.trans pre.length_le) le
  cases x with
  | invoke op request =>
      cases op with
      | write id => exact h
      | get i => trivial
  | respond op out =>
      cases op with
      | write id =>
          obtain ⟨k, e, bytes, res, t, at_, names, produced, decoded, eq, committed⟩ := h
          have inside := (List.getElem?_eq_some_iff.mp at_).1
          refine ⟨k, e, bytes, res, t, getElem?_of_pre pre at_, names, ?_, decoded, eq, ?_⟩
          · rw [take inside.le]
            exact produced
          · rw [take inside]
            exact committed
      | get i =>
          obtain ⟨k, s, key, t, le, reflects, eq, invoked, covers, committed⟩ := h
          refine ⟨k, s, key, t, le.trans pre.length_le, ?_, eq, invoked, covers, ?_⟩
          · rw [take le]
            exact reflects
          · rw [take le]
            exact committed

/-- A committed prefix that a store has reached, in which the events have their place. -/
structure Log (codecs : Codecs) (window : Nat) (groups : List (Group ID Store)) (a : Abs ID)
    (stamped : Stamped ID) (events : List (ClientEvent × Abs ID)) (C : List Entry) : Prop where
  committed : ∃ t, CommittedBy a t C
  reached : ∀ k < C.length, Reached groups (k + 1)
  reflects : ∃ s, Reflects (Store.machine codecs window) s C
  placed : ∀ x ∈ events, Placed codecs window C stamped x.1 x.2

/-- The prefix that explains one event. -/
theorem explained_log {groups : List (Group ID Store)} {a : Abs ID} {stamped : Stamped ID}
    {x : ClientEvent × Abs ID} (later : Later x.2 a)
    (h : Explained codecs window groups stamped x.1 x.2) :
    ∃ C, Log codecs window groups a stamped [x] C := by
  have only {C : List Entry} (placed : Placed codecs window C stamped x.1 x.2) :
      ∀ y ∈ [x], Placed codecs window C stamped y.1 y.2 := by
    intro y hy
    rw [List.mem_singleton.mp hy]
    exact placed
  have down {k m : Nat} (reached : Reached groups m) (lt : k < m) : Reached groups (k + 1) := by
    obtain ⟨g, hg, n, le⟩ := reached
    exact ⟨g, hg, n, le.trans' lt⟩
  obtain ⟨x, b⟩ := x
  have none_ (placed : Placed codecs window [] stamped x b) :
      ∃ C, Log codecs window groups a stamped [(x, b)] C :=
    ⟨[], ⟨0, Consensus.committedBy_nil a 0⟩, fun k lt => (by cases lt), ⟨_, .init⟩, only placed⟩
  cases x with
  | invoke op request =>
      cases op with
      | write id => exact none_ h
      | get i => exact none_ trivial
  | respond op out =>
      cases op with
      | write id =>
          obtain ⟨t, P, e, bytes, res, committed, names, produced, decoded, eq, reached⟩ := h
          obtain ⟨s, s', reflects, applied⟩ := produced
          refine ⟨P ++ [e], ⟨t, Consensus.later_committedBy later committed⟩, fun k lt => ?_,
            ⟨s', .apply reflects (requestId_command names).1 applied⟩, only ?_⟩
          · exact down reached (by simpa using lt)
          · refine ⟨P.length, e, bytes, res, t, List.getElem?_concat_length, names, ?_, decoded, eq,
              ?_⟩
            · rw [List.take_left]
              exact ⟨s, s', reflects, applied⟩
            · rw [List.take_of_length_le (by simp)]
              exact committed
      | get i =>
          obtain ⟨t, P, s, key, committed, reflects, eq, reached, invoked, covers⟩ := h
          refine ⟨P, ⟨t, Consensus.later_committedBy later committed⟩,
            fun k lt => down reached lt, ⟨s, reflects⟩, only ?_⟩
          refine ⟨P.length, s, key, t, Nat.le_refl _, ?_, eq, invoked, covers, ?_⟩
          · rw [List.take_length]
            exact reflects
          · rw [List.take_length]
            exact committed

/-- Two prefixes are comparable, so the longer one serves for both. -/
theorem log_merge {cfg : Config ID} {groups : List (Group ID Store)} {a : Abs ID}
    {stamped : Stamped ID} {events events' : List (ClientEvent × Abs ID)} {C C' : List Entry}
    (sound : Sound cfg a) (h : Log codecs window groups a stamped events C)
    (h' : Log codecs window groups a stamped events' C') :
    ∃ D, Log codecs window groups a stamped (events ++ events') D := by
  obtain ⟨t, committed⟩ := h.committed
  obtain ⟨t', committed'⟩ := h'.committed
  rcases Consensus.committed_comparable sound.inv committed committed' with pre | pre
  · refine ⟨C', h'.committed, h'.reached, h'.reflects, fun x hx => ?_⟩
    rcases List.mem_append.mp hx with left | right
    · exact placed_mono pre (h.placed x left)
    · exact h'.placed x right
  · refine ⟨C, h.committed, h.reached, h.reflects, fun x hx => ?_⟩
    rcases List.mem_append.mp hx with left | right
    · exact h.placed x left
    · exact placed_mono pre (h'.placed x right)

/-- One log for all events of a run. -/
theorem log_exists [DecidableEq ID] {cfg : Config ID} {groups : List (Group ID Store)}
    {a : Abs ID} {stamped : Stamped ID} {c : Cluster ID}
    (backed : Backed cfg codecs window groups c a stamped) :
    ∃ C, Log codecs window groups a stamped stamped C := by
  obtain ⟨ground, book, clients⟩ := backed
  have upto (events : List (ClientEvent × Abs ID)) (sub : events ⊆ stamped) :
      ∃ C, Log codecs window groups a stamped events C := by
    induction events with
    | nil =>
        exact ⟨[], ⟨0, Consensus.committedBy_nil a 0⟩, fun k lt => (by cases lt), ⟨_, .init⟩,
          fun x hx => by cases hx⟩
    | cons x rest ih =>
        obtain ⟨C', log'⟩ := ih fun y hy => sub (List.mem_cons_of_mem _ hy)
        have hx : x ∈ stamped := sub (List.mem_cons_self ..)
        obtain ⟨C, log⟩ := explained_log (clients.later x hx) (clients.explained x hx)
        exact log_merge ground.rel.sound log log'
  exact upto stamped (List.Subset.refl _)

end Placement

section Slots

variable (codecs window) (C : List Entry)

/-- The operation that position `k` carries out: the request of its entry, if it stands
there for the first time. -/
def slot (k : Nat) (e : Entry) : Option (Point OpId Request Response) :=
  (e.command codecs).bind fun cmd =>
    if ∃ e' ∈ C.take k, e'.requestId codecs = some cmd.requestId then none
    else cmd.write.map fun w =>
      { op := .write cmd.requestId
        input := .write w
        output := (kvSpec.step (Store.along codecs window C k).view (.write w)).2 }

def slots : List (Option (Point OpId Request Response)) := C.mapIdx (slot codecs window C)

variable {codecs window C}

open Store (Requested Orderly along)

theorem requested_before {id : String} {k : Nat} :
    (∃ e ∈ C.take k, e.requestId codecs = some id) ↔ ∃ j < k, Requested codecs C id j := by
  constructor
  · rintro ⟨e, he, names⟩
    obtain ⟨j, at_⟩ := List.getElem?_of_mem he
    rw [List.getElem?_take] at at_
    split at at_
    next lt => exact ⟨j, lt, e, at_, names⟩
    · cases at_
  · rintro ⟨j, lt, e, at_, names⟩
    exact ⟨e, List.mem_of_getElem? ((List.getElem?_take_of_lt lt).trans at_), names⟩

theorem requested_first {id : String} {k : Nat} (h : Requested codecs C id k) :
    ∃ j ≤ k, Requested codecs C id j ∧ ∀ i < j, ¬ Requested codecs C id i := by
  classical
  have some_ : ∃ j, Requested codecs C id j := ⟨k, h⟩
  exact ⟨Nat.find some_, Nat.find_le h, Nat.find_spec some_, fun i lt => Nat.find_min some_ lt⟩

theorem slots_at {k : Nat} {o : Option (Point OpId Request Response)} :
    (slots codecs window C)[k]? = some o ↔ ∃ e, C[k]? = some e ∧ slot codecs window C k e = o := by
  rw [slots, List.getElem?_mapIdx, Option.map_eq_some_iff]

theorem slot_some {k : Nat} {e : Entry} {x : Point OpId Request Response}
    (h : slot codecs window C k e = some x) :
    ∃ cmd w, e.command codecs = some cmd ∧ cmd.write = some w ∧
      (∀ j < k, ¬ Requested codecs C cmd.requestId j) ∧ x.op = .write cmd.requestId ∧
      x.input = .write w ∧
      x.output = (kvSpec.step (along codecs window C k).view (.write w)).2 := by
  obtain ⟨cmd, command, h⟩ := Option.bind_eq_some_iff.mp h
  split at h
  · cases h
  next first =>
    obtain ⟨w, means, rfl⟩ := Option.map_eq_some_iff.mp h
    refine ⟨cmd, w, command, means, fun j lt there => ?_, rfl, rfl, rfl⟩
    exact first (requested_before.mpr ⟨j, lt, there⟩)

theorem slot_first {k : Nat} {e : Entry} {cmd : Command} {w : Write}
    (command : e.command codecs = some cmd) (means : cmd.write = some w)
    (first : ∀ j < k, ¬ Requested codecs C cmd.requestId j) :
    slot codecs window C k e =
      some
        { op := .write cmd.requestId
          input := .write w
          output := (kvSpec.step (along codecs window C k).view (.write w)).2 } := by
  have new : ¬ ∃ e' ∈ C.take k, e'.requestId codecs = some cmd.requestId := fun before => by
    obtain ⟨j, lt, there⟩ := requested_before.mp before
    exact first j lt there
  rw [slot, command, Option.bind_some, if_neg new, means]
  rfl

/-- Every command in the log writes something. -/
def Meaningful (codecs : Codecs) (C : List Entry) : Prop :=
  ∀ e ∈ C, ∀ cmd, e.command codecs = some cmd → ∃ w, cmd.write = some w

variable (orderly : Orderly codecs window C) (meaningful : Meaningful codecs C)
include orderly meaningful

/-- The store moves along the log as the slots say. -/
theorem slots_carry {k : Nat} {o : Option (Point OpId Request Response)}
    (h : (slots codecs window C)[k]? = some o) :
    Carries kvSpec (fun k => (along codecs window C k).view) k o := by
  obtain ⟨e, at_, rfl⟩ := slots_at.mp h
  cases type : e.type with
  | noop =>
      have empty : slot codecs window C k e = none := by simp [slot, Entry.command, type]
      rw [empty]
      exact congrArg Store.view (Store.noop_step orderly at_ type)
  | normal =>
      obtain ⟨cmd, res, command, executed⟩ := Store.command_step orderly at_ type
      obtain ⟨w, means⟩ := meaningful e (List.mem_of_getElem? at_) cmd command
      have here : Requested codecs C cmd.requestId k := ⟨e, at_, requestId_of_command command⟩
      obtain ⟨j, le, there, first⟩ := requested_first here
      rcases Nat.eq_or_lt_of_le le with rfl | lt
      · rw [slot_first command means first]
        have step := Store.first_step orderly at_ means first executed
        show kvSpec.step _ _ = _
        rw [step]
      · have empty : slot codecs window C k e = none := by
          rw [slot, command, Option.bind_some, if_pos (requested_before.mpr ⟨j, lt, there⟩)]
        obtain ⟨e₀, at₀, names⟩ := there
        obtain ⟨normal, cmd₀, command₀, same⟩ := requestId_command names
        obtain ⟨cmd₁, res₀, command₁, executed₀⟩ := Store.command_step orderly at₀ normal
        cases command₀.symm.trans command₁
        rw [empty]
        exact Store.view_congr (Store.repeated_answer orderly at₀ command₀ (same ▸ first) executed₀
          lt at_ command same.symm executed).2

/-- What an attempt was answered is the output at the slot of its request. -/
theorem slots_answer {k : Nat} {e : Entry} {id : String} {bytes : Bytes} {res : Result}
    (at_ : C[k]? = some e) (names : e.requestId codecs = some id)
    (produced : Produces (Store.machine codecs window) (C.take k) e bytes)
    (decoded : codecs.result.unmarshal bytes = some res) :
    ∃ j ≤ k, ∃ x, (slots codecs window C)[j]? = some (some x) ∧ x.op = .write id ∧
      x.output = .wrote res := by
  obtain ⟨normal, cmd, command, rfl⟩ := requestId_command names
  obtain ⟨s, s', reflects, applied⟩ := produced
  obtain ⟨-, -, replayed⟩ := Store.reflects_store reflects
  rw [Store.replay_take orderly.applied k] at replayed
  cases replayed
  obtain ⟨cmd', res', decoded', executed', rfl⟩ := Store.apply_execute applied
  obtain ⟨cmd₁, res₁, command₁, executed₁⟩ := Store.command_step orderly at_ normal
  cases command.symm.trans command₁
  -- The machine's answer is the one that the log position determines.
  have answer : res₁ = res := by
    rw [codecs.result.round] at decoded
    cases decoded
    have same : cmd' = cmd := by
      rw [Entry.command, normal, decoded'] at command
      exact Option.some.inj command
    rw [orderly.indexed k e at_, same, executed₁] at executed'
    exact congrArg Prod.snd (Option.some.inj executed')
  subst answer
  obtain ⟨j, le, there, first⟩ := requested_first ⟨e, at_, names⟩
  obtain ⟨e₀, at₀, names₀⟩ := there
  obtain ⟨normal₀, cmd₀, command₀, same⟩ := requestId_command names₀
  obtain ⟨w, means⟩ := meaningful e₀ (List.mem_of_getElem? at₀) cmd₀ command₀
  obtain ⟨cmd₂, res₀, command₂, executed₀⟩ := Store.command_step orderly at₀ normal₀
  cases command₀.symm.trans command₂
  refine ⟨j, le, _, slots_at.mpr ⟨e₀, at₀, slot_first command₀ means (same ▸ first)⟩,
    congrArg OpId.write same, ?_⟩
  simp only [Store.first_step orderly at₀ means (same ▸ first) executed₀]
  rcases Nat.eq_or_lt_of_le le with rfl | lt
  · rw [at_] at at₀
    cases at₀
    cases command.symm.trans command₀
    rw [executed₁] at executed₀
    exact congrArg (Response.wrote ∘ Prod.snd) (Option.some.inj executed₀).symm
  · rw [(Store.repeated_answer orderly at₀ command₀ (same ▸ first) executed₀ lt at_ command
      same.symm executed₁).1]

end Slots

section Reading

variable (codecs window) (C : List Entry) (stamped : Stamped ID)

def answersGet : ClientEvent → Bool
  | .respond (.get _) _ => true
  | _ => false

/-- `p` is the answered get of event `x`, which saw the store after `k` entries. -/
def ReadAt (x : ClientEvent × Abs ID) (k : Nat) (p : Point OpId Request Response) : Prop :=
  ∃ i s key t, x.1 = .respond (.get i) p.output ∧ p.op = .get i ∧ p.input = .get key ∧
    k ≤ C.length ∧ Reflects (Store.machine codecs window) s (C.take k) ∧
    p.output = .got ((s.get key).toOption.map Store.Entry.read) ∧
    .invoke (.get i) (.get key) ∈ stamped.map Prod.fst ∧ UpTo stamped i k ∧
    CommittedBy x.2 t (C.take k)

/-- The answered gets that have their place at `k`, in the order of their answers. -/
def readsAt (place : ClientEvent × Abs ID → Nat)
    (point : ClientEvent × Abs ID → Point OpId Request Response) (k : Nat) :
    List (Point OpId Request Response) :=
  (stamped.filter fun x => answersGet x.1 && place x == k).map point

variable {codecs window C stamped}

theorem placed_read {x : ClientEvent × Abs ID} (get : answersGet x.1 = true)
    (h : Placed codecs window C stamped x.1 x.2) : ∃ k p, ReadAt codecs window C stamped x k p := by
  obtain ⟨x, b⟩ := x
  cases x with
  | invoke op request => cases get
  | respond op out =>
      cases op with
      | write id => cases get
      | get i =>
          obtain ⟨k, s, key, t, le, reflects, eq, rest⟩ := h
          exact ⟨k, ⟨.get i, .get key, out⟩, i, s, key, t, rfl, rfl, rfl, le, reflects, eq, rest⟩

theorem answersGet_iff {x : ClientEvent} :
    answersGet x = true ↔ ∃ i out, x = .respond (.get i) out := by
  constructor
  · intro get
    cases x with
    | invoke op request => cases get
    | respond op out =>
        cases op with
        | write id => cases get
        | get i => exact ⟨i, out, rfl⟩
  · rintro ⟨i, out, rfl⟩
    rfl

variable {place : ClientEvent × Abs ID → Nat}
  {point : ClientEvent × Abs ID → Point OpId Request Response}

theorem mem_readsAt {k : Nat} {p : Point OpId Request Response} :
    p ∈ readsAt stamped place point k ↔
      ∃ x ∈ stamped, answersGet x.1 = true ∧ place x = k ∧ point x = p := by
  simp only [readsAt, List.mem_map, List.mem_filter, Bool.and_eq_true, beq_iff_eq]
  constructor
  · rintro ⟨x, ⟨hx, get, at_⟩, eq⟩
    exact ⟨x, hx, get, at_, eq⟩
  · rintro ⟨x, hx, get, at_, eq⟩
    exact ⟨x, ⟨hx, get, at_⟩, eq⟩

section Order

variable (ordered : stamped.Pairwise fun x y => Later x.2 y.2)
  (quiet : (stamped.map Prod.fst).Pairwise fun x y =>
    ∀ i out, x = .respond (.get i) out → y.op ≠ .get i)

include ordered in
/-- Real time is the order of the stamps. -/
theorem precedes_stamps {op op' : OpId} (h : Precedes (stamped.map Prod.fst) op op') :
    ∃ x ∈ stamped, ∃ y ∈ stamped, ∃ out input, x.1 = .respond op out ∧
      y.1 = .invoke op' input ∧ Later x.2 y.2 := by
  obtain ⟨before, after, out, input, split, told, invoked⟩ := h
  obtain ⟨l₁, l₂, rfl, rfl, rfl⟩ := List.map_eq_append_iff.mp split
  obtain ⟨x, hx, told⟩ := List.mem_map.mp told
  obtain ⟨y, hy, invoked⟩ := List.mem_map.mp invoked
  exact ⟨x, List.mem_append_left _ hx, y, List.mem_append_right _ hy, out, input, told, invoked,
    (List.pairwise_append.mp ordered).2.2 x hx y hy⟩

include quiet

/-- A get is answered once. -/
theorem answered_once {x y : ClientEvent × Abs ID} (hx : x ∈ stamped) (hy : y ∈ stamped) {i : Nat}
    {out out' : Response} (told : x.1 = .respond (.get i) out)
    (told' : y.1 = .respond (.get i) out') : x = y := by
  have apart : stamped.Pairwise fun x y => ∀ i out out', x.1 = .respond (.get i) out →
      y.1 ≠ .respond (.get i) out' :=
    (List.pairwise_map.mp quiet).imp fun silent i out out' eq eq' =>
      silent i out eq (congrArg Event.op eq')
  by_contra other
  have symm : Std.Symm fun x y : ClientEvent × Abs ID => ∀ i out out',
      x.1 = .respond (.get i) out → y.1 ≠ .respond (.get i) out' :=
    ⟨fun x y h i out out' eq eq' => h i out' out eq' eq⟩
  exact apart.forall hx hy other i out out' told told'

/-- A get that was answered first was not invoked after the other's answer. -/
theorem answers_in_order :
    stamped.Pairwise fun x y => ∀ i j out out', x.1 = .respond (.get i) out →
      y.1 = .respond (.get j) out' →
        i ≠ j ∧ ¬ Precedes (stamped.map Prod.fst) (.get j) (.get i) := by
  rw [List.pairwise_iff_getElem]
  intro p q hp hq lt i j out out' told told'
  have silent := List.pairwise_iff_getElem.mp (List.pairwise_map.mp quiet)
  refine ⟨?_, ?_⟩
  · rintro rfl
    exact silent p q hp hq lt i out told (congrArg Event.op told')
  · rintro ⟨before, after, o, request, split, answered, invoked⟩
    obtain ⟨l₁, l₂, eq, rfl, rfl⟩ := List.map_eq_append_iff.mp split
    obtain ⟨y, hy, answered⟩ := List.mem_map.mp answered
    obtain ⟨z, hz, invoked⟩ := List.mem_map.mp invoked
    -- The answer of `j` is the one at `q`, so what comes after it comes after `p`.
    obtain ⟨r, hr, rfl⟩ := List.getElem_of_mem hy
    obtain ⟨m, hm, rfl⟩ := List.getElem_of_mem hz
    subst eq
    have hr' : r < (l₁ ++ l₂).length := by rw [List.length_append]; omega
    have hm' : l₁.length + m < (l₁ ++ l₂).length := by rw [List.length_append]; omega
    have left : (l₁ ++ l₂)[r] = l₁[r] := List.getElem_append_left hr
    have right : (l₁ ++ l₂)[l₁.length + m] = l₂[m] := by
      rw [List.getElem_append_right (Nat.le_add_right ..)]
      simp only [Nat.add_sub_cancel_left]
    have same : q ≤ r := by
      by_contra less
      exact silent r q hr' hq (by omega) j o (by rw [left]; exact answered)
        (congrArg Event.op told')
    exact silent p (l₁.length + m) hp hm' (by omega) i out told (by rw [right, invoked]; rfl)

end Order
end Reading

end EdgeKV
