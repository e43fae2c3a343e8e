import EdgeKV.Raft.Process
import Mathlib.Logic.Relation

/-!
A group of replicas and the network between them. The network keeps every message
ever sent, and an action may consume any of them at any time and any number of
times: loss, duplication, delay and reordering are choices of the run. A crash
may fall between any two durable effects of an action; the node then starts again
from its storage.
-/
namespace EdgeKV

variable {ID σ : Type}

structure Group (ID σ : Type) where
  procs : ID → Process ID σ
  net : List (Msg ID) := []

namespace Group

/-- Every member starts on an empty storage. -/
def initial (M : StateMachine σ) : Group ID σ where
  procs := fun _ => { raft := {}, storage := {}, machine := M.init }

end Group

/-- The bytes a snapshot action captures are a serialisation of the machine. -/
def Action.Genuine (M : StateMachine σ) (p : Process ID σ) : Action ID → Prop
  | .applier (.snapshot (some data)) => M.snapshot p.machine data
  | _ => True

/-- Whether the action captures a snapshot. -/
def Action.captures : Action ID → Bool
  | .applier (.snapshot (some _)) => true
  | _ => false

variable [DecidableEq ID] (cfg : Config ID) (M : StateMachine σ) (T : Transport)

/-- Node `n` can take action `a` with the given outcome. -/
structure Enabled (g : Group ID σ) (n : ID) (a : Action ID) (out : Outcome ID σ) : Prop where
  member : n ∈ cfg.peers
  exec : (g.procs n).exec cfg n M T a = some out
  received : ∀ m, a.input n = some m → m ∈ g.net
  genuine : a.Genuine M (g.procs n)

/-- The durable effects that node `n` may have made when it crashes: a beginning
of those of an action it could take. -/
inductive Interrupted (g : Group ID σ) (n : ID) : List (StorageOp ID) → Prop
  | idle (member : n ∈ cfg.peers) : Interrupted g n []
  | during {a : Action ID} {out : Outcome ID σ} {ops : List (StorageOp ID)}
      (enabled : Enabled cfg M T g n a out) (begun : ops <+: out.ops) : Interrupted g n ops

namespace Group

/-- A step of node `n`: an action, or a crash and a restart. -/
inductive StepOf (n : ID) : Group ID σ → Group ID σ → Prop
  | run {g : Group ID σ} {a : Action ID} {out : Outcome ID σ} {p : Process ID σ}
      {sent : List (Msg ID)} {s : MemStorage ID}
      (enabled : Enabled cfg M T g n a out)
      (stored : (g.procs n).storage.performAll out.ops = some s)
      (next : out.next = some (p, sent)) :
      StepOf n g
        { procs := Function.update g.procs n { p with storage := s }
          net := g.net ++ sent }
  | crash {g : Group ID σ} {ops : List (StorageOp ID)} {s : MemStorage ID}
      {p : Process ID σ}
      (interrupted : Interrupted cfg M T g n ops)
      (stored : (g.procs n).storage.performAll ops = some s)
      (restarted : Process.start M s (g.procs n).clock = some p) :
      StepOf n g { g with procs := Function.update g.procs n p }

/-- Node `n` takes the action. -/
def Performs (n : ID) (act : Action ID) (g g' : Group ID σ) : Prop :=
  ∃ out p sent s, Enabled cfg M T g n act out ∧
    (g.procs n).storage.performAll out.ops = some s ∧ out.next = some (p, sent) ∧
    g' = { procs := Function.update g.procs n { p with storage := s }, net := g.net ++ sent }

/-- Node `n` crashes and starts again. -/
def Crashes (n : ID) (g g' : Group ID σ) : Prop :=
  ∃ ops s p, Interrupted cfg M T g n ops ∧ (g.procs n).storage.performAll ops = some s ∧
    Process.start M s (g.procs n).clock = some p ∧
    g' = { g with procs := Function.update g.procs n p }

def Step (g g' : Group ID σ) : Prop := ∃ n, StepOf cfg M T n g g'

/-- Any number of steps of any nodes. -/
abbrev Steps : Group ID σ → Group ID σ → Prop := Relation.ReflTransGen (Step cfg M T)

/-- The states of all runs of the group. -/
def Reachable (g : Group ID σ) : Prop := Steps cfg M T (initial M) g

/-- One action of one node, executed; `none` where it is not enabled. Capturing a
snapshot is left out, because its bytes are not computed but chosen. -/
def act (g : Group ID σ) (n : ID) (a : Action ID) : Option (Group ID σ) :=
  if n ∈ cfg.peers ∧ (∀ m ∈ (a.input n).toList, m ∈ g.net) ∧ a.captures = false then
    ((g.procs n).exec cfg n M T a).bind fun out =>
      out.next.bind fun (p, sent) =>
        ((g.procs n).storage.performAll out.ops).map fun s =>
          { procs := Function.update g.procs n { p with storage := s }
            net := g.net ++ sent }
  else none

/-- The group after node `n` has captured a snapshot at `index`. -/
def captured (g : Group ID σ) (n : ID) (index : Nat) (data : Bytes) : Group ID σ :=
  { g with
    procs := Function.update g.procs n { g.procs n with applier := .captured index data } }

/-- A list of actions, executed one after the other. -/
def play (g : Group ID σ) : List (ID × Action ID) → Option (Group ID σ)
  | [] => some g
  | (n, a) :: rest => (act cfg M T g n a).bind fun g' => play g' rest

variable {cfg M T}

theorem performs_step {g g' : Group ID σ} {n : ID} {a : Action ID}
    (h : Performs cfg M T n a g g') : StepOf cfg M T n g g' := by
  obtain ⟨out, p, sent, s, enabled, stored, next, rfl⟩ := h
  exact .run enabled stored next

theorem performs_received {g g' : Group ID σ} {n : ID} {a : Action ID} {m : Msg ID}
    (h : Performs cfg M T n a g g') (input : a.input n = some m) : m ∈ g.net := by
  obtain ⟨out, p, sent, s, enabled, -⟩ := h
  exact enabled.received m input

theorem crashes_step {g g' : Group ID σ} {n : ID} (h : Crashes cfg M T n g g') :
    StepOf cfg M T n g g' := by
  obtain ⟨ops, s, p, interrupted, stored, restarted, rfl⟩ := h
  exact .crash interrupted stored restarted

/-- A step of one node leaves the processes of the others alone. -/
theorem stepOf_other {g g' : Group ID σ} {n m : ID} (h : StepOf cfg M T n g g') (other : m ≠ n) :
    g'.procs m = g.procs m := by
  cases h with
  | run enabled stored next => exact Function.update_of_ne other _ _
  | crash interrupted stored restarted => exact Function.update_of_ne other _ _

theorem act_enabled {g g' : Group ID σ} {n : ID} {a : Action ID}
    (h : act cfg M T g n a = some g') : Performs cfg M T n a g g' := by
  simp only [act] at h
  split at h
  next able =>
    obtain ⟨out, exec, h⟩ := Option.bind_eq_some_iff.mp h
    obtain ⟨⟨p, sent⟩, next, h⟩ := Option.bind_eq_some_iff.mp h
    obtain ⟨s, stored, rfl⟩ := Option.map_eq_some_iff.mp h
    obtain ⟨member, received, plain⟩ := able
    refine ⟨out, p, sent, s, ⟨member, exec, fun m hm => received m (by simp [hm]), ?_⟩, stored,
      next, rfl⟩
    unfold Action.Genuine
    split
    · cases plain
    · trivial
  · cases h

theorem act_step {g g' : Group ID σ} {n : ID} {a : Action ID} (h : act cfg M T g n a = some g') :
    Step cfg M T g g' :=
  ⟨n, performs_step (act_enabled h)⟩

theorem captured_step {g : Group ID σ} {n : ID} {index : Nat} {data : Bytes}
    (member : n ∈ cfg.peers) (stage : (g.procs n).applier = .snapshotting index)
    (genuine : M.snapshot (g.procs n).machine data) :
    Step cfg M T g (g.captured n index data) := by
  have exec : (g.procs n).exec cfg n M T (.applier (.snapshot (some data))) =
      some (Process.quiet { g.procs n with applier := .captured index data }) := by
    simp only [Process.exec, Process.execApplier, stage]
  refine ⟨n, performs_step (a := .applier (.snapshot (some data)))
    ⟨_, _, [], (g.procs n).storage, ⟨member, exec, fun m input => ?_, genuine⟩, rfl, rfl, ?_⟩⟩
  · cases input
  · rw [List.append_nil]
    rfl

theorem play_steps {g g' : Group ID σ} {actions : List (ID × Action ID)}
    (h : play cfg M T g actions = some g') : Steps cfg M T g g' := by
  induction actions generalizing g with
  | nil => cases h; exact .refl
  | cons step rest ih =>
      obtain ⟨mid, first, h⟩ := Option.bind_eq_some_iff.mp h
      exact .head (act_step first) (ih h)

end Group
end EdgeKV
