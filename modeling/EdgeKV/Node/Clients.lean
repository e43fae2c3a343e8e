import EdgeKV.Node.Cluster
import EdgeKV.Raft.Indexes
import EdgeKV.Raft.Proposals
import EdgeKV.Raft.ReadIndex

/-!
What a group knows of its clients: every proposal and every read request that a
process holds was handed to it by a call.
-/
namespace EdgeKV

variable {ID σ : Type}

section Origins

/-- Every proposal that the process knows of satisfies `I`. -/
structure Issued (I : Nat → Bytes → Prop) (p : Process ID σ) : Prop where
  offered : ∀ q ∈ p.proposeCh, I q.id q.data
  waiting : ∀ i q, (i, q) ∈ p.raft.waiters → I q.id q.data
  told : ∀ q out, (q, .ok out) ∈ p.raft.done → I q.id q.data

theorem issued_mono {I J : Nat → Bytes → Prop} {p : Process ID σ} (h : Issued I p)
    (imp : ∀ id data, I id data → J id data) : Issued J p :=
  ⟨fun q hq => imp _ _ (h.offered q hq), fun i q hq => imp _ _ (h.waiting i q hq),
    fun q out hq => imp _ _ (h.told q out hq)⟩

theorem issued_start {I : Nat → Bytes → Prop} {M : StateMachine σ} {s : MemStorage ID} {clock : Nat}
    {p : Process ID σ} (started : Process.start M s clock = some p) : Issued I p := by
  obtain ⟨raft, machine, created, -, rfl⟩ := start_eq started
  obtain ⟨rlog, -, rfl⟩ := Option.map_eq_some_iff.mp created
  exact ⟨fun q hq => (by cases hq), fun i q hq => (by cases hq), fun q out hq => by cases hq⟩

variable [DecidableEq ID] {cfg : Config ID} {n : ID} {M : StateMachine σ} {T : Transport}
  {p p' : Process ID σ} {act : Action ID} {out : Outcome ID σ} {sent : List (Msg ID)}

theorem bearing_issued {I : Nat → Bytes → Prop} (h : Bearing cfg n M p act p')
    (issued : Issued I p) :
    (∀ i q, (i, q) ∈ p'.raft.waiters → I q.id q.data) ∧
      ∀ q out, (q, .ok out) ∈ p'.raft.done → I q.id q.data := by
  refine ⟨fun i q waits => ?_, fun q out told => ?_⟩
  · rcases bearing_waiters h waits with old | ⟨count, -, -, -, -, new⟩
    · exact issued.waiting i q old
    · obtain ⟨k, q₀, there, rfl, rfl⟩ := batchWaiters_mem new
      exact issued.offered q₀ (List.mem_of_mem_take (List.mem_of_getElem? there))
  · rcases bearing_told h told with old | ⟨results, x, -, -, waited, -⟩
    · exact issued.told q out old
    · exact issued.waiting _ q waited

theorem issued_run {I : Nat → Bytes → Prop} (effect : Effect cfg n M T p act out)
    (next : out.next = some (p', sent))
    (proposed : ∀ id data, act = .client (.propose id data) → I id data) (issued : Issued I p) :
    Issued I p' := by
  obtain ⟨waiting, told⟩ := bearing_issued (effect_bearing effect next) issued
  refine ⟨fun q hq => ?_, waiting, told⟩
  rcases (effect_inbox effect next).1 q hq with old | ⟨id, data, rfl, rfl⟩
  · exact issued.offered q old
  · exact proposed id data rfl

end Origins

section Inbox

/-- All proposals of the group satisfy `I`, and all its read requests have numbers
below `bound`. -/
structure Inbox (I : Nat → Bytes → Prop) (bound : Nat) (g : Group ID σ) : Prop where
  issued : ∀ m, Issued I (g.procs m)
  reads : ∀ m, ∀ id ∈ (g.procs m).readIds, id < bound

theorem inbox_mono {I J : Nat → Bytes → Prop} {b b' : Nat} {g : Group ID σ} (h : Inbox I b g)
    (imp : ∀ id data, I id data → J id data) (le : b ≤ b') : Inbox J b' g :=
  ⟨fun m => issued_mono (h.issued m) imp, fun m id hid => (h.reads m id hid).trans_le le⟩

variable [DecidableEq ID] {cfg : Config ID} {n : ID} {M : StateMachine σ} {T : Transport}
  {g g' : Group ID σ} {act : Action ID} {I : Nat → Bytes → Prop} {b b' : Nat}

theorem performs_inbox (h : Group.Performs cfg M T n act g g') (inbox : Inbox I b g)
    (proposed : ∀ id data, act = .client (.propose id data) → I id data)
    (asked : ∀ id, act = .client (.readIndex id) → id < b') (le : b ≤ b') : Inbox I b' g' := by
  obtain ⟨out, p, sent, s, enabled, stored, next, rfl⟩ := h
  have effect := exec_effect enabled.exec
  refine ⟨fun m => ?_, fun m id hid => ?_⟩
  · by_cases own : m = n
    · subst own
      simp only [Function.update_self]
      have kept := issued_run effect next proposed (inbox.issued m)
      exact ⟨kept.offered, kept.waiting, kept.told⟩
    · simp only [Function.update_of_ne own]
      exact inbox.issued m
  · by_cases own : m = n
    · subst own
      simp only [Function.update_self] at hid
      rcases (effect_inbox effect next).2 id hid with old | new
      · exact (inbox.reads m id old).trans_le le
      · exact asked id new
    · simp only [Function.update_of_ne own] at hid
      exact (inbox.reads m id hid).trans_le le

theorem crashes_inbox (h : Group.Crashes cfg M T n g g') (inbox : Inbox I b g) :
    Inbox I b g' := by
  obtain ⟨ops, s, p, interrupted, stored, restarted, rfl⟩ := h
  refine ⟨fun m => ?_, fun m id hid => ?_⟩
  · by_cases own : m = n
    · subst own
      simp only [Function.update_self]
      exact issued_start restarted
    · simp only [Function.update_of_ne own]
      exact inbox.issued m
  · by_cases own : m = n
    · subst own
      obtain ⟨raft, machine, -, -, rfl⟩ := start_eq restarted
      simp [Process.readIds] at hid
    · simp only [Function.update_of_ne own] at hid
      exact inbox.reads m id hid

end Inbox
end EdgeKV
