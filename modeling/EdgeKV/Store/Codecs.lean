import Mathlib.Data.Countable.Basic
import Mathlib.Data.FinEnum
import Mathlib.Data.UInt
import Mathlib.Logic.Equiv.List
import Mathlib.Tactic.DeriveCountable
import EdgeKV.Store.Store

/-!
Encodings exist. The proofs use nothing of the protobuf encodings but that decoding
undoes encoding; since there are countably many messages, such encodings can be had,
with any one message written as a single byte.
-/
namespace EdgeKV

instance charCountable : Countable Char :=
  have injective : Function.Injective Char.toNat := fun _ _ same =>
    Char.ext (UInt32.toNat_inj.mp same)
  injective.countable

instance stringCountable : Countable String :=
  have injective : Function.Injective String.toList := fun _ _ same => String.toList_inj.mp same
  injective.countable

deriving instance Countable for Op, Command, Status, Result, SnapshotRecord, SnapshotDedup,
  StoreSnapshot

theorem codec_exists (α : Type) [Countable α] : Nonempty (Codec α) := by
  classical
  obtain ⟨f, injective⟩ := Countable.exists_injective_nat α
  refine ⟨{ marshal := fun a => List.replicate (f a) 0
            unmarshal := fun data => if h : ∃ a, f a = data.length then some h.choose else none
            round := fun a => ?_ }⟩
  have found : ∃ b, f b = (List.replicate (f a) (0 : UInt8)).length := ⟨a, by simp⟩
  rw [dif_pos found]
  exact congrArg some (injective (found.choose_spec.trans (by simp)))

namespace Codec

variable {α : Type}

/-- Some encoding of the type. -/
noncomputable def any (α : Type) [Countable α] : Codec α := Classical.choice (codec_exists α)

/-- An encoding that writes `a₀` as a single byte. -/
def short [DecidableEq α] (base : Codec α) (a₀ : α) : Codec α where
  marshal := fun a => if a = a₀ then [0] else 1 :: base.marshal a
  unmarshal := fun data =>
    match data with
    | [0] => some a₀
    | 1 :: rest => base.unmarshal rest
    | _ => none
  round := fun a => by
    by_cases same : a = a₀
    · rw [if_pos same, same]
      rfl
    · simp only [if_neg same, base.round]

end Codec

/-- A command that puts a byte at key `a`. -/
def firstPut : Command := { op := .put, key := "a", value := [7], requestId := "r" }

/-- Encodings that can be computed with, for a command and the result of a first write. -/
noncomputable def shortCodecs (cmd : Command) : Codecs where
  command := (Codec.any Command).short cmd
  result := (Codec.any Result).short { version := 1 }
  snapshot := Codec.any StoreSnapshot

end EdgeKV
