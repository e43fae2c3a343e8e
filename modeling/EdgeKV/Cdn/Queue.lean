import EdgeKV.Bytes
import EdgeKV.Executions
import Mathlib.Data.Finset.Basic

/-!
The queue of paths to invalidate. Any number of writers insert paths and signal the worker over a
channel with one slot; the worker drains whatever has gathered, and invalidates it with retries.
-/
namespace EdgeKV.Cdn

/-- Where the loop of `Queue.run` is. -/
inductive Worker
  /-- At the select on `wake`. -/
  | waiting
  /-- It has received a token and lets a burst of writes gather. -/
  | pausing
  /-- In the call of `Invalidate`. -/
  | invalidating (paths : List Bytes) (attempt : Nat)
  /-- The call has failed. -/
  | backingOff (paths : List Bytes) (attempt : Nat)
  /-- Past the loop of attempts, before `onResult` has returned. -/
  | reporting (paths : List Bytes) (ok : Bool)
  /-- It has seen `stop`. -/
  | returned
  deriving DecidableEq, Repr

/-- A `Queue` with its worker and the calls of `Enqueue`. If the invalidator is `Noop`, these
return before they insert anything, and take no step. -/
structure Queue where
  pending : Finset Bytes := ∅
  /-- The slot of the channel is full. -/
  wake : Bool := false
  stop : Bool := false
  worker : Worker := .waiting
  /-- The calls of `Enqueue` between the insert and the send. -/
  sending : Nat → Option Bytes := fun _ => none

namespace Queue

variable (q : Queue)

/-- The part of `Enqueue` under the lock, in the call `i`. -/
def insert (i : Nat) (path : Bytes) : Queue :=
  { q with pending := Insert.insert path q.pending, sending := Function.update q.sending i (some path) }

/-- The send of `Enqueue`, which is dropped if the slot is full. -/
def send (i : Nat) : Queue :=
  { q with wake := true, sending := Function.update q.sending i none }

/-- The part of `run` under the lock, and the test that follows it. -/
def drain (paths : List Bytes) : Queue :=
  { q with pending := ∅, worker := if paths = [] then .waiting else .invalidating paths 0 }

/-- The worker leaves one of its pauses. -/
def goes (worker : Worker) : Queue := { q with worker }

end Queue

/-- The worker takes all that is pending, in whatever order the map is ranged over. -/
structure Drains (q : Queue) (paths : List Bytes) (q' : Queue) : Prop where
  pausing : q.worker = .pausing
  once : paths.Nodup
  ranged : ∀ p, p ∈ paths ↔ p ∈ q.pending
  result : q' = q.drain paths

/-- The steps of the worker, but for its return. -/
inductive Work : Queue → Queue → Prop
  | receive {q : Queue} (waiting : q.worker = .waiting) (token : q.wake = true) :
      Work q { q with wake := false, worker := .pausing }
  | drain {q q' : Queue} {paths : List Bytes} (drained : Drains q paths q') : Work q q'
  | invalidated {q : Queue} {paths : List Bytes} {attempt : Nat}
      (calling : q.worker = .invalidating paths attempt) : Work q (q.goes (.reporting paths true))
  | failed {q : Queue} {paths : List Bytes} {attempt : Nat}
      (calling : q.worker = .invalidating paths attempt) : Work q (q.goes (.backingOff paths attempt))
  | again {q : Queue} {paths : List Bytes} {attempt : Nat}
      (resting : q.worker = .backingOff paths attempt) (left : attempt + 1 < 4) :
      Work q (q.goes (.invalidating paths (attempt + 1)))
  | giveUp {q : Queue} {paths : List Bytes} {attempt : Nat}
      (resting : q.worker = .backingOff paths attempt) (spent : ¬ attempt + 1 < 4) :
      Work q (q.goes (.reporting paths false))
  | report {q : Queue} {paths : List Bytes} {ok : Bool}
      (reporting : q.worker = .reporting paths ok) : Work q (q.goes .waiting)

/-- The send of the call `i`. -/
inductive Sends (i : Nat) : Queue → Queue → Prop
  | send {q : Queue} {path : Bytes} (here : q.sending i = some path) : Sends i q (q.send i)

inductive Step : Queue → Queue → Prop
  | insert {q : Queue} {i : Nat} (path : Bytes) (free : q.sending i = none) : Step q (q.insert i path)
  | send {q q' : Queue} {i : Nat} (sent : Sends i q q') : Step q q'
  | work {q q' : Queue} (worked : Work q q') : Step q q'
  | stop {q : Queue} : Step q { q with stop := true }
  | quit {q : Queue} (stopped : q.stop = true)
      (select : q.worker = .waiting ∨ q.worker = .pausing ∨
        ∃ paths attempt, q.worker = .backingOff paths attempt) : Step q (q.goes .returned)

variable {q q' : Queue} {σ : Nat → Queue} {p : Bytes} {i k : Nat}

section Waking

/-- As long as nobody has called `Stop`, whatever is pending has the worker's attention, or will
have it. -/
structure Inv (q : Queue) : Prop where
  running : q.stop = false → q.worker ≠ .returned
  awaited : q.stop = false → q.pending.Nonempty →
    q.wake = true ∨ q.worker = .pausing ∨ ∃ i path, q.sending i = some path

theorem inv_goes (h : Inv q) {w : Worker} (stage : q.worker ≠ .pausing) (live : w ≠ .returned) :
    Inv (q.goes w) := by
  refine ⟨fun _ => live, fun running some => ?_⟩
  rcases h.awaited running some with token | pausing | calls
  · exact Or.inl token
  · exact absurd pausing stage
  · exact Or.inr (Or.inr calls)

theorem inv_work (h : Inv q) (worked : Work q q') : Inv q' := by
  cases worked with
  | receive => exact ⟨fun _ => nofun, fun _ _ => Or.inr (Or.inl rfl)⟩
  | @drain _ paths drained =>
      rw [drained.result]
      refine ⟨fun _ => ?_, fun _ some => absurd some Finset.not_nonempty_empty⟩
      change (if paths = [] then Worker.waiting else .invalidating paths 0) ≠ .returned
      split <;> exact nofun
  | invalidated calling | failed calling => exact inv_goes h (by rw [calling]; exact nofun) nofun
  | again resting | giveUp resting => exact inv_goes h (by rw [resting]; exact nofun) nofun
  | report reporting => exact inv_goes h (by rw [reporting]; exact nofun) nofun

theorem inv_step (h : Inv q) (next : Step q q') : Inv q' := by
  cases next with
  | @insert i path free =>
      refine ⟨h.running, fun _ _ => Or.inr (Or.inr ⟨i, path, ?_⟩)⟩
      exact Function.update_self ..
  | send sent =>
      cases sent
      exact ⟨h.running, fun _ _ => Or.inl rfl⟩
  | work worked => exact inv_work h worked
  | stop => exact ⟨nofun, nofun⟩
  | quit stopped =>
      have never : q.stop ≠ false := by rw [stopped]; exact nofun
      exact ⟨fun no => absurd no never, fun no => absurd no never⟩

theorem execution_inv (h : Execution {} Step σ) (k : Nat) : Inv (σ k) := by
  refine h.invariant ⟨fun _ => nofun, ?_⟩ (fun _ _ => inv_step) k
  exact fun _ some => absurd some Finset.not_nonempty_empty

end Waking

section Draining

/-- The step `j` drains a batch with the path in it. -/
def DrainsAt (σ : Nat → Queue) (p : Bytes) (j : Nat) : Prop :=
  ∃ paths, p ∈ paths ∧ Drains (σ j) paths (σ (j + 1))

theorem step_pending (next : Step q q') (here : p ∈ q.pending)
    (kept : ¬ ∃ paths, p ∈ paths ∧ Drains q paths q') : p ∈ q'.pending := by
  cases next with
  | insert => exact Finset.mem_insert_of_mem here
  | send sent => cases sent; exact here
  | work worked =>
      cases worked with
      | @drain _ paths drained => exact absurd ⟨paths, (drained.ranged p).mpr here, drained⟩ kept
      | _ => exact here
  | stop => exact here
  | quit => exact here

theorem pending_next (h : Execution {} Step σ) {j : Nat} (kept : ¬ DrainsAt σ p j)
    (here : p ∈ (σ j).pending) : p ∈ (σ (j + 1)).pending := by
  rcases h.next j with same | next
  · rw [same]
    exact here
  · exact step_pending next here kept

theorem pending_until (h : Execution {} Step σ) (here : p ∈ (σ k).pending) {n : Nat} (later : k ≤ n) :
    p ∈ (σ n).pending ∨ ∃ j, k ≤ j ∧ j < n ∧ DrainsAt σ p j :=
  Execution.until_ended σ (P := fun q => p ∈ q.pending) (fun _ _ => pending_next h) here later

end Draining

section Progress

/-- The worker goes on where it can, its pauses and its calls being bounded in time, and so does
every call of `Enqueue`. -/
structure Fair (σ : Nat → Queue) : Prop where
  work : WeaklyFair Work σ
  send : ∀ i, WeaklyFair (Sends i) σ

theorem work_possible (running : q.worker ≠ .returned)
    (token : q.worker = .waiting → q.wake = true) : ∃ q', Work q q' := by
  cases stage : q.worker with
  | waiting => exact ⟨_, .receive stage (token stage)⟩
  | pausing => exact ⟨_, .drain ⟨stage, q.pending.nodup_toList, fun p => Finset.mem_toList, rfl⟩⟩
  | invalidating paths attempt => exact ⟨_, .invalidated stage⟩
  | backingOff paths attempt =>
      by_cases left : attempt + 1 < 4
      · exact ⟨_, .again stage left⟩
      · exact ⟨_, .giveUp stage left⟩
  | reporting paths ok => exact ⟨_, .report stage⟩
  | returned => exact absurd stage running

/-- A step that is not the worker's leaves it where it is, and its token in the slot. -/
theorem step_idle (next : Step q q') (running : q.stop = false) (idle : ¬ Work q q') :
    q'.worker = q.worker ∧ (q.wake = true → q'.wake = true) := by
  cases next with
  | insert => exact ⟨rfl, id⟩
  | send sent => cases sent; exact ⟨rfl, fun _ => rfl⟩
  | work worked => exact absurd worked idle
  | stop => exact ⟨rfl, id⟩
  | quit stopped =>
      rw [running] at stopped
      cases stopped

theorem step_sending {path : Bytes} (next : Step q q') (other : ¬ Sends i q q')
    (here : q.sending i = some path) : q'.sending i = some path := by
  cases next with
  | @insert j path' free =>
      have apart : i ≠ j := by
        rintro rfl
        rw [free] at here
        cases here
      exact (Function.update_of_ne apart ..).trans here
  | @send _ j sent =>
      have apart : i ≠ j := by
        rintro rfl
        exact other sent
      cases sent
      exact (Function.update_of_ne apart ..).trans here
  | work worked =>
      cases worked with
      | drain drained => rw [drained.result]; exact here
      | _ => exact here
  | stop => exact here
  | quit => exact here

theorem sends_eventually (h : Execution {} Step σ) (fair : Fair σ) {path : Bytes}
    (here : (σ k).sending i = some path) : ∃ j, k ≤ j ∧ Sends i (σ j) (σ (j + 1)) := by
  refine (fair.send i).eventually (P := fun q => q.sending i = some path) ?_ ?_ here
  · intro j _ other still
    rcases h.next j with same | next
    · rw [same]
      exact still
    · exact step_sending next other still
  · exact fun j _ still => ⟨_, .send still⟩

theorem works_with_token (h : Execution {} Step σ) (fair : Fair σ)
    (running : ∀ k, (σ k).stop = false) (token : (σ k).worker = .waiting → (σ k).wake = true) :
    ∃ j, k ≤ j ∧ Work (σ j) (σ (j + 1)) := by
  refine fair.work.eventually (P := fun q => q.worker = .waiting → q.wake = true) ?_ ?_ token
  · intro j _ idle still
    rcases h.next j with same | next
    · rw [same]
      exact still
    · obtain ⟨worker, wake⟩ := step_idle next (running j) idle
      intro waiting
      rw [worker] at waiting
      exact wake (still waiting)
  · intro j _ still
    exact work_possible ((execution_inv h j).running (running j)) still

/-- While something is pending, the worker does not rest for ever. -/
theorem works_again (h : Execution {} Step σ) (fair : Fair σ) (running : ∀ k, (σ k).stop = false)
    (some : (σ k).pending.Nonempty) : ∃ j, k ≤ j ∧ Work (σ j) (σ (j + 1)) := by
  by_cases token : (σ k).worker = .waiting → (σ k).wake = true
  · exact works_with_token h fair running token
  · obtain ⟨waiting, empty⟩ := Classical.not_imp.mp token
    rcases (execution_inv h k).awaited (running k) some with full | pausing | ⟨i, path, sending⟩
    · exact absurd full empty
    · rw [waiting] at pausing
      cases pausing
    · obtain ⟨j, later, sent⟩ := sends_eventually h fair sending
      have full : (σ (j + 1)).wake = true := by
        generalize σ (j + 1) = q at sent
        cases sent
        rfl
      obtain ⟨n, after, worked⟩ := works_with_token (k := j + 1) h fair running fun _ => full
      exact ⟨n, by omega, worked⟩

/-- How many steps of the worker there are at most before it pauses again. -/
def Worker.rank : Worker → Nat
  | .invalidating _ attempt => 2 * (4 - attempt) + 4
  | .backingOff _ attempt => 2 * (4 - attempt) + 3
  | .reporting _ _ => 2
  | .waiting => 1
  | .pausing | .returned => 0

theorem work_rank (worked : Work q q') (kept : ¬ ∃ paths, Drains q paths q') :
    q'.worker.rank < q.worker.rank := by
  cases worked with
  | receive waiting => rw [waiting]; exact Nat.zero_lt_one
  | drain drained => exact absurd ⟨_, drained⟩ kept
  | invalidated calling =>
      rw [calling]
      change 2 < 2 * _ + 4
      omega
  | failed calling =>
      rw [calling]
      exact Nat.lt_succ_self _
  | @again paths attempt resting left =>
      rw [resting]
      change 2 * (4 - (attempt + 1)) + 4 < 2 * (4 - attempt) + 3
      omega
  | giveUp resting =>
      rw [resting]
      change 2 < 2 * _ + 3
      omega
  | report reporting => rw [reporting]; exact Nat.one_lt_two

/-- Whatever is pending is drained. -/
theorem drained_eventually (h : Execution {} Step σ) (fair : Fair σ)
    (running : ∀ k, (σ k).stop = false) (here : p ∈ (σ k).pending) :
    ∃ j, k ≤ j ∧ DrainsAt σ p j := by
  by_contra never
  have open_ (j : Nat) (later : k ≤ j) : ¬ DrainsAt σ p j := fun drains => never ⟨j, later, drains⟩
  have pending (j : Nat) (later : k ≤ j) : p ∈ (σ j).pending := by
    refine (pending_until h here later).resolve_right ?_
    exact fun ⟨j, from_k, _, drains⟩ => open_ j from_k drains
  have falls : ∀ j, k ≤ j → ¬ DrainsAt σ p j → Work (σ j) (σ (j + 1)) →
      (σ (j + 1)).worker.rank < (σ j).worker.rank := by
    intro j later kept worked
    refine work_rank worked fun ⟨paths, drained⟩ => kept ⟨paths, ?_, drained⟩
    exact (drained.ranged p).mpr (pending j later)
  have stays : ∀ j, k ≤ j → ¬ DrainsAt σ p j →
      (σ (j + 1)).worker.rank ≤ (σ j).worker.rank := by
    intro j later kept
    by_cases worked : Work (σ j) (σ (j + 1))
    · exact Nat.le_of_lt (falls j later kept worked)
    · rcases h.next j with same | next
      · rw [same]
      · rw [(step_idle next (running j) worked).1]
  refine never (eventually_of_rank (fun j => (σ j).worker.rank) stays falls fun j later => ?_)
  obtain ⟨n, after, worked⟩ := works_again h fair running ⟨p, pending j later⟩
  exact ⟨n, after, Or.inr worked⟩

end Progress

/-- The queue loses no path. -/
theorem queue_loses_no_path (σ : Nat → Queue) (h : Execution {} Step σ) :
    (∀ k, (σ k).stop = false → (σ k).pending.Nonempty →
      (σ k).wake = true ∨ (σ k).worker = .pausing ∨ ∃ i path, (σ k).sending i = some path) ∧
    (∀ k i p, σ (k + 1) = (σ k).insert i p →
      (∀ n, k < n → p ∉ (σ n).pending → ∃ j, k < j ∧ j < n ∧ DrainsAt σ p j) ∧
      -- In particular if the worker has the path in its hands at the time.
      (Fair σ → (∀ n, (σ n).stop = false) → ∃ j, k < j ∧ DrainsAt σ p j)) := by
  refine ⟨fun k => (execution_inv h k).awaited, fun k i p inserted => ?_⟩
  have here : p ∈ (σ (k + 1)).pending := by
    rw [inserted]
    exact Finset.mem_insert_self ..
  constructor
  · intro n later gone
    obtain ⟨j, from_k, before, drains⟩ := (pending_until h here later).resolve_left gone
    exact ⟨j, from_k, before, drains⟩
  · intro fair running
    exact drained_eventually h fair running here

section Example

/-- One path is enqueued, drained and invalidated; then nothing happens any more. -/
def onePath (path : Bytes) : Nat → Queue
  | 0 => {}
  | 1 => Queue.insert {} 0 path
  | 2 => (Queue.insert {} 0 path).send 0
  | 3 => { (Queue.insert {} 0 path).send 0 with wake := false, worker := .pausing }
  | 4 => { sending := ((Queue.insert {} 0 path).send 0).sending, worker := .invalidating [path] 0 }
  | 5 => { sending := ((Queue.insert {} 0 path).send 0).sending, worker := .reporting [path] true }
  | _ + 6 => { sending := ((Queue.insert {} 0 path).send 0).sending }

theorem onePath_execution (path : Bytes) : Execution {} Step (onePath path) := by
  refine ⟨rfl, fun k => ?_⟩
  match k with
  | 0 => exact Or.inr (.insert path rfl)
  | 1 =>
      have begun : (onePath path 1).sending 0 = some path := rfl
      exact Or.inr (.send (.send begun))
  | 2 => exact Or.inr (.work (.receive rfl rfl))
  | 3 =>
      have drained : Drains (onePath path 3) [path] (onePath path 4) := by
        refine ⟨rfl, List.nodup_singleton path, ?_, rfl⟩
        exact fun p => List.mem_singleton.trans Finset.mem_singleton.symm
      exact Or.inr (.work (.drain drained))
  | 4 => exact Or.inr (.work (.invalidated rfl))
  | 5 => exact Or.inr (.work (.report rfl))
  | _ + 6 => exact Or.inl rfl

theorem onePath_fair (path : Bytes) : Fair (onePath path) := by
  constructor
  · intro k possible
    obtain ⟨q, worked⟩ := possible (k + 6) (Nat.le_add_right k 6)
    cases worked with
    | receive _ token => cases token
    | drain drained => cases drained.pausing
    | invalidated no | failed no | again no | giveUp no | report no => cases no
  · intro i k possible
    obtain ⟨q, sent⟩ := possible (k + 6) (Nat.le_add_right k 6)
    have quiet : (onePath path (k + 6)).sending i = none := by
      simp [onePath, Queue.send, Queue.insert]
    cases sent with
    | send here =>
        rw [quiet] at here
        cases here

theorem queue_loses_no_path_once : ∃ j, 0 < j ∧ DrainsAt (onePath []) [] j :=
  ((queue_loses_no_path (onePath []) (onePath_execution [])).2 0 0 [] rfl).2 (onePath_fair []) <| by
    intro n
    match n with
    | 0 | 1 | 2 | 3 | 4 | 5 | _ + 6 => rfl

end Example

end EdgeKV.Cdn
