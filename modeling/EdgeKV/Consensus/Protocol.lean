import EdgeKV.Consensus.Quorum
import EdgeKV.Consensus.Log
import Mathlib.Logic.Function.Basic
import Mathlib.Logic.Relation
import Mathlib.Order.MinMax

/-!
Leader-based replication of full logs, without messages, snapshots or volatile
state. A state keeps, beside each node's term and log, the history that the
safety argument talks about: who voted for whom, the log every candidate stood
with, the ledger every elected leader has written, what each node acknowledged
in each term, and how far each term's leader has committed. A follower adopts a
prefix of the ledger of its term; nothing asks how it learnt that prefix.
-/
namespace Consensus

structure State (N E : Type) where
  term : N → Nat
  log : N → List E
  voted : N → Nat → N → Prop
  cand : Nat → N → Option (List E)
  leader : Nat → Option N
  ledger : Nat → List E
  acked : N → Nat → Nat
  commit : Nat → Nat

variable {N E : Type}

/-- What a move can never undo, and what it leaves alone at other nodes. -/
structure Grows (n : N) (s s' : State N E) : Prop where
  term : ∀ m, s.term m ≤ s'.term m
  voted : ∀ {m t c}, s.voted m t c → s'.voted m t c
  cand : ∀ {t m L}, t ≤ s.term m → s.cand t m = some L → s'.cand t m = some L
  leader : ∀ {t m}, s.leader t = some m → s'.leader t = some m
  ledger : ∀ t, s.ledger t <+: s'.ledger t
  acked : ∀ m t, s.acked m t ≤ s'.acked m t
  commit : ∀ t, s.commit t ≤ s'.commit t
  otherTerm : ∀ m, m ≠ n → s'.term m = s.term m
  otherLog : ∀ m, m ≠ n → s'.log m = s.log m
  otherLeader : ∀ {t m}, m ≠ n → s'.leader t = some m → s.leader t = some m
  otherCommit : ∀ {t m}, m ≠ n → s.leader t = some m → s'.commit t = s.commit t

theorem grows_refl (n : N) (s : State N E) : Grows n s s where
  term _ := le_rfl
  voted := id
  cand _ := id
  leader := id
  ledger _ := List.prefix_rfl
  acked _ _ := le_rfl
  commit _ := le_rfl
  otherTerm _ _ := rfl
  otherLog _ _ := rfl
  otherLeader _ := id
  otherCommit _ _ := rfl

theorem Grows.trans {n : N} {s s' s'' : State N E}
    (h : Grows n s s') (h' : Grows n s' s'') : Grows n s s'' where
  term m := (h.term m).trans (h'.term m)
  voted hv := h'.voted (h.voted hv)
  cand hle hc := h'.cand (hle.trans (h.term _)) (h.cand hle hc)
  leader hl := h'.leader (h.leader hl)
  ledger t := (h.ledger t).trans (h'.ledger t)
  acked m t := (h.acked m t).trans (h'.acked m t)
  commit t := (h.commit t).trans (h'.commit t)
  otherTerm m hm := (h'.otherTerm m hm).trans (h.otherTerm m hm)
  otherLog m hm := (h'.otherLog m hm).trans (h.otherLog m hm)
  otherLeader hm hl := h.otherLeader hm (h'.otherLeader hm hl)
  otherCommit hm hl := (h'.otherCommit hm (h.leader hl)).trans (h.otherCommit hm hl)

variable [DecidableEq N]

namespace State

/-- No term has begun and every log is empty. -/
def initial : State N E where
  term := fun _ => 0
  log := fun _ => []
  voted := fun _ _ _ => False
  cand := fun _ _ => none
  leader := fun _ => none
  ledger := fun _ => []
  acked := fun _ _ => 0
  commit := fun _ => 0

def newTerm (s : State N E) (n : N) (t : Nat) : State N E :=
  { s with term := Function.update s.term n t }

def campaign (s : State N E) (n : N) : State N E :=
  { s with
    term := Function.update s.term n (s.term n + 1)
    voted := fun m t c => s.voted m t c ∨ (m = n ∧ t = s.term n + 1 ∧ c = n)
    cand := fun t c => if t = s.term n + 1 ∧ c = n then some (s.log n) else s.cand t c }

def vote (s : State N E) (n c : N) : State N E :=
  { s with voted := fun m t d => s.voted m t d ∨ (m = n ∧ t = s.term n ∧ d = c) }

def elect (s : State N E) (n : N) : State N E :=
  { s with
    leader := Function.update s.leader (s.term n) (some n)
    ledger := Function.update s.ledger (s.term n) (s.log n) }

def append (s : State N E) (n : N) (e : E) : State N E :=
  { s with
    log := Function.update s.log n (s.log n ++ [e])
    ledger := Function.update s.ledger (s.term n) (s.ledger (s.term n) ++ [e]) }

noncomputable def accept (s : State N E) (n : N) (q : Nat) : State N E :=
  { s with log := Function.update s.log n (adopt (s.ledger (s.term n)) q (s.log n)) }

def ack (s : State N E) (n : N) (q : Nat) : State N E :=
  { s with acked := fun m t => if m = n ∧ t = s.term n then max (s.acked m t) q else s.acked m t }

def commitTo (s : State N E) (n : N) (c : Nat) : State N E :=
  { s with commit := Function.update s.commit (s.term n) c }

end State

/-- The moves of node `n`. -/
inductive Step (Q : Quorums N) (tm : E → Nat) (n : N) : State N E → State N E → Prop
  | newTerm {s} (t : Nat) (later : s.term n < t) : Step Q tm n s (s.newTerm n t)
  | campaign {s} : Step Q tm n s (s.campaign n)
  | vote {s} (c : N) (L : List E) (stood : s.cand (s.term n) c = some L)
      (upToDate : UpToDate tm L (s.log n)) : Step Q tm n s (s.vote n c)
  | elect {s} (vacant : s.leader (s.term n) = none)
      (stood : s.cand (s.term n) n = some (s.log n))
      (quorum : Q.IsQuorum fun v => s.voted v (s.term n) n) : Step Q tm n s (s.elect n)
  | append {s} (e : E) (leads : s.leader (s.term n) = some n) (own : tm e = s.term n) :
      Step Q tm n s (s.append n e)
  | accept {s} (q : Nat) (led : s.leader (s.term n) ≠ none) : Step Q tm n s (s.accept n q)
  | ack {s} (q : Nat) (bound : q ≤ (s.ledger (s.term n)).length)
      (holds : (s.ledger (s.term n)).take q <+: s.log n) : Step Q tm n s (s.ack n q)
  | commitTo {s} (c : Nat) (leads : s.leader (s.term n) = some n)
      (later : s.commit (s.term n) < c)
      (own : termAt tm (s.ledger (s.term n)) c = s.term n)
      (quorum : Q.IsQuorum fun v => c ≤ s.acked v (s.term n)) :
      Step Q tm n s (s.commitTo n c)

/-- Any number of moves of node `n`. -/
abbrev Steps (Q : Quorums N) (tm : E → Nat) (n : N) : State N E → State N E → Prop :=
  Relation.ReflTransGen (Step Q tm n)

/-- States reached by moves of any nodes in any order. -/
inductive Reachable (Q : Quorums N) (tm : E → Nat) : State N E → Prop
  | initial : Reachable Q tm State.initial
  | step {s s'} (n : N) (h : Reachable Q tm s) (move : Step Q tm n s s') : Reachable Q tm s'

end Consensus
