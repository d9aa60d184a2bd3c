/-
# A small chain of epochs that can be computed with

One validator of power `1`, a first epoch of the blocks `0` to `5`, and a calendar in which no
time is left in a year, so that every next epoch has the emergency number of blocks.  Epochs
are encoded by one byte: `1` is the first epoch, `2` the epoch that is proposed after it.
-/

import LigoChain.Staking.LocalEpoch
import LigoChain.State.Revert
import Mathlib.Data.List.Sort

namespace LigoChain
namespace Staking
namespace PlainEpoch

open State

/-- One validator does not come after another in the order of `sort.Slice`. -/
def notAfter (v v' : Validator) : Prop := ¬Validator.before v' v

instance : DecidableRel notAfter := fun _ _ => inferInstanceAs (Decidable ¬_)

theorem notAfter_iff (v v' : Validator) :
    notAfter v v' ↔ v'.remainingEpoch < v.remainingEpoch ∨
      v'.remainingEpoch = v.remainingEpoch ∧ v'.votingPower ≤ v.votingPower := by
  unfold notAfter Validator.before
  split_ifs with h <;> simp <;> omega

instance : Std.Total notAfter := ⟨fun v v' => by simp only [notAfter_iff]; omega⟩

instance : IsTrans Validator notAfter :=
  ⟨fun v v' v'' h h' => by simp only [notAfter_iff] at h h' ⊢; omega⟩

/-- One validator. -/
def validators : ValidatorSet := ⟨[⟨[1], [1], 1, 0⟩]⟩

/-- The first epoch in the genesis document. -/
def doc : OneEpochDoc where
  number := 0
  rewardPerBlock := 0
  startBlock := 0
  endBlock := 5
  status := .notExist
  validators := validators

/-- Ten epochs a year, without reward. -/
def rs : RewardScheme := ⟨0, 10, 0⟩

/-- The epoch that is proposed after the first one. -/
def nextEpoch : EpochData where
  number := 1
  rewardPerBlock := 0
  startBlock := 6
  endBlock := 5 + Epoch.emergencyBlocksOfNextEpoch
  startTime := Epoch.zeroTime
  endTime := Epoch.zeroTime
  status := .proposedNotVoted
  validators := validators

/-- The first epoch, with the time at which it began. -/
def firstEpoch (startTime : ℤ) : EpochData where
  number := 0
  rewardPerBlock := 0
  startBlock := 0
  endBlock := 5
  startTime := startTime
  endTime := 0
  status := .notExist
  validators := validators

/-- The encoding, the calendar and the sort. -/
def libs : EpochLibs where
  fromBytes b := if b = [1] then some (firstEpoch 0) else if b = [2] then some nextEpoch else none
  bytes e := if e.number = 0 then [1] else [2]
  addYears t _ := t
  sortSlice vals := vals.insertionSort notAfter
  sortSlice_perm vals := vals.perm_insertionSort notAfter
  sortSlice_sorted vals := vals.pairwise_insertionSort notAfter

/-- The node at the genesis block. -/
def genesis : Epoch := .initEpoch rs doc 0

/-- A block of the chain, a second after the one before. -/
def block (number : ℕ) (epochBytes : Bytes) : Block where
  number := number
  time := number * 1000000000
  epochBytes := epochBytes
  votes := []
  state := StateDB.new Root.empty

/-- An insertion at a time. -/
def insertion (now : ℤ) : Epoch.Insertion where
  now := now
  updateFirst := true
  order s := s.toList

end PlainEpoch
end Staking
end LigoChain
