/-
# The bounds of the next epoch

`estimateForNextEpoch` and `ProposeNextEpoch` in `epoch/epoch.go`.  The number of blocks of the
next epoch is a quotient of two times as `int64`, converted to `uint64`.  The time per block is
the average over an epoch, from the clock of a node and the times in headers, and neither has to
go forward.  A negative average makes the quotient negative, and the conversion makes of it more
blocks than a year has nanoseconds (`estimate_of_backward_time`).

No division is by zero, and the bounds hold exactly if the quotient is between `0` and a year, the
last block of the next epoch has a number, and the reward of the epoch is not negative
(`estimate_bounds_iff`).  The quotient is between them if blocks take time on average and at most
a year is left (`signedBlocks_between`); it is negative if they do not and the time of an epoch is
long enough (`signedBlocks_neg`).
-/

import LigoChain.Staking.Clock
import LigoChain.Staking.Emission

namespace LigoChain
namespace Staking

open GoInt

/-- The longest year, of 366 days, in nanoseconds. -/
def yearNanoseconds : ℕ := 31622400000000000

/-- The quotient of two `int64`. -/
def int64Quot (x y : ℤ) : ℤ := wrapInt (x.tdiv y)

theorem int64Div_of_ne {x y : ℤ} (hy : y ≠ 0) : Epoch.int64Div x y = .ok (int64Quot x y) :=
  if_neg hy

/-- A `uint64` that is not `0` is not `0` as an `int64`. -/
theorem ofUint64_ne_zero {n : ℕ} (hpos : 0 < n) (hlt : n < 2 ^ 64) : ofUint64 n ≠ 0 := by
  rcases le_or_gt (n : ℤ) maxInt with hint | hint
  · rw [ofUint64_of_le hint]
    exact_mod_cast hpos.ne'
  · exact (ofUint64_of_lt hint hlt).ne

/-- A quotient of numbers that are not negative is between `0` and the dividend. -/
theorem int64Quot_between {x y : ℤ} (hx : 0 ≤ x) (hint : x ≤ maxInt) (hy : 0 < y) :
    0 ≤ int64Quot x y ∧ int64Quot x y ≤ x := by
  have hnonneg : 0 ≤ x.tdiv y := Int.tdiv_nonneg hx hy.le
  have hle : x.tdiv y ≤ x := by
    rw [Int.tdiv_eq_ediv_of_nonneg hx]
    exact Int.ediv_le_self y hx
  have hkept : int64Quot x y = x.tdiv y :=
    wrapInt_of_isInt ⟨by unfold minInt; omega, hle.trans hint⟩
  rw [hkept]
  exact ⟨hnonneg, hle⟩

theorem int64Quot_neg {x y : ℤ} (hint : x ≤ maxInt) (hy : y < 0) (hxy : -y ≤ x) :
    int64Quot x y < 0 := by
  have hx : 0 ≤ x := by omega
  have hquot : x.tdiv y = -(x / -y) := by
    rw [← Int.tdiv_eq_ediv_of_nonneg hx, Int.tdiv_neg, neg_neg]
  have hpos : 1 ≤ x / -y := (Int.le_ediv_iff_mul_le (by omega)).2 (by omega)
  have hle : x / -y ≤ x := Int.ediv_le_self _ hx
  have hkept : int64Quot x y = x.tdiv y := by
    refine wrapInt_of_isInt (isInt_iff.2 ?_)
    unfold maxInt at hint
    omega
  rw [hkept, hquot]
  omega

namespace Epoch

variable (L : EpochLibs) (ep : Epoch)

/-- The time per block, where no division is by zero. -/
def timePerBlock (lastBlockHeight : ℕ) (lastBlockTime : ℤ) : ℤ :=
  let perBlock := match ep.previousEpoch with
    | some prev =>
      int64Quot (timeSub prev.endTime prev.startTime) (blockCount prev.endBlock prev.startBlock)
    | none =>
      int64Quot (timeSub lastBlockTime ep.startTime) (blockCount lastBlockHeight ep.startBlock)
  if perBlock = 0 then 1000000000 else perBlock

/-- The epochs that are left in the year of the epoch. -/
def epochLeftThisYear : ℕ := ep.rs.epochNumberPerYear - ep.number % ep.rs.epochNumberPerYear - 1

/-- The epochs that share the time: those that are left, or those of the next year. -/
def epochsLeft : ℕ :=
  if ep.epochLeftThisYear = 0 then ep.rs.epochNumberPerYear else ep.epochLeftThisYear

/-- The time that they share; the first epoch began at `initStartTime`. -/
def timeLeft (initStartTime lastBlockTime : ℤ) : ℤ :=
  let nextYearStartTime := L.addYears initStartTime (ep.number / ep.rs.epochNumberPerYear + 1)
  if ep.epochLeftThisYear = 0 then timeSub (L.addYears nextYearStartTime 1) nextYearStartTime
  else timeSub nextYearStartTime lastBlockTime

/-- The number of blocks that the times give, before it is converted to `uint64`. -/
def signedBlocks (initStartTime : ℤ) (lastBlockHeight : ℕ) (lastBlockTime : ℤ) : ℤ :=
  if ep.epochLeftThisYear = 0 ∨ 0 < ep.timeLeft L initStartTime lastBlockTime then
    int64Quot (int64Quot (ep.timeLeft L initStartTime lastBlockTime) (ofUint64 ep.epochsLeft))
      (ep.timePerBlock lastBlockHeight lastBlockTime)
  else 0

/-- The reward of the next epoch, before it is divided among its blocks. -/
def nextReward : ℤ :=
  calculateRewardPerEpochByYear ep.rs.rewardFirstYear
    (ofUint64 ((ep.number + 1) / ep.rs.epochNumberPerYear)) (ofUint64 ep.rs.totalYear)
    (ofUint64 ep.rs.epochNumberPerYear)

/-- What is known of an epoch and of the last block when the next epoch is proposed: the first
epoch is stored, there are epochs in a year, and both epochs that a time per block can be taken
from have a block after their first one. -/
structure Proposable (initStartTime : ℤ) (lastBlockHeight : ℕ) : Prop where
  stored : ∃ zeroEpoch, ep.db.loadOneEpoch 0 = some zeroEpoch ∧ zeroEpoch.startTime = initStartTime
  perYear : 1 ≤ ep.rs.epochNumberPerYear
  perYear_lt : ep.rs.epochNumberPerYear < 2 ^ 64
  height : ep.startBlock < lastBlockHeight
  height_lt : lastBlockHeight < 2 ^ 64
  previous : ∀ prev, ep.previousEpoch = some prev →
    prev.startBlock < prev.endBlock ∧ prev.endBlock < 2 ^ 64

variable {L ep} {initStartTime lastBlockTime : ℤ} {lastBlockHeight : ℕ}

/-- The number of blocks from one to a later one is not `0` as an `int64`. -/
theorem blockCount_ne_zero {a b : ℕ} (hlt : b < a) (ha : a < 2 ^ 64) : blockCount a b ≠ 0 := by
  have h := ofUint64_ne_zero (n := a - b) (by omega) (by omega)
  unfold ofUint64 at h
  rwa [Nat.cast_sub hlt.le] at h

theorem timePerBlock_ne_zero : ep.timePerBlock lastBlockHeight lastBlockTime ≠ 0 := by
  unfold timePerBlock
  dsimp only
  split_ifs with hzero
  · decide
  · exact hzero

theorem Proposable.timePerBlockOfEpoch (h : ep.Proposable initStartTime lastBlockHeight) :
    ep.timePerBlockOfEpoch lastBlockHeight lastBlockTime =
      .ok (ep.timePerBlock lastBlockHeight lastBlockTime) := by
  unfold Epoch.timePerBlockOfEpoch timePerBlock
  cases hprev : ep.previousEpoch with
  | none =>
    dsimp only
    rw [int64Div_of_ne (blockCount_ne_zero h.height h.height_lt)]
    rfl
  | some prev =>
    obtain ⟨hlt, hend⟩ := h.previous prev hprev
    dsimp only
    rw [int64Div_of_ne (blockCount_ne_zero hlt hend)]
    rfl

theorem blocksPerEpoch_of_ne {time timePerBlock : ℤ} {epochs : ℕ} (hpos : 0 < epochs)
    (hlt : epochs < 2 ^ 64) (hne : timePerBlock ≠ 0) :
    blocksPerEpoch time epochs timePerBlock =
      .ok (toUint64 (int64Quot (int64Quot time (ofUint64 epochs)) timePerBlock)) := by
  unfold blocksPerEpoch
  rw [int64Div_of_ne (ofUint64_ne_zero hpos hlt)]
  change (int64Div _ timePerBlock >>= _ : Go ℕ) = _
  rw [int64Div_of_ne hne]
  rfl

/-- **`estimateForNextEpoch` divides by nothing that is zero**, and returns the emergency number
of blocks, or more if the times give more as a `uint64`. -/
theorem Proposable.estimateForNextEpoch (h : ep.Proposable initStartTime lastBlockHeight) :
    ∃ blocks, blocks = max emergencyBlocksOfNextEpoch
        (toUint64 (ep.signedBlocks L initStartTime lastBlockHeight lastBlockTime)) ∧
      ep.estimateForNextEpoch L lastBlockHeight lastBlockTime =
        .ok (ep.nextReward / ofUint64 blocks, blocks) := by
  obtain ⟨zeroEpoch, hzero, rfl⟩ := h.stored
  have hyear := succ_div_of_left (n := ep.number) h.perYear
  have hleft : ep.epochLeftThisYear < 2 ^ 64 := by
    have := h.perYear_lt
    unfold epochLeftThisYear
    omega
  refine ⟨_, rfl, ?_⟩
  unfold Epoch.estimateForNextEpoch nextReward signedBlocks timeLeft epochsLeft
  rw [hzero, hyear]
  dsimp only
  rw [if_neg (by have := h.perYear; omega), h.timePerBlockOfEpoch]
  change (if ep.epochLeftThisYear = 0 then _ else _ : Go (ℤ × ℕ)) = _
  by_cases hend : ep.epochLeftThisYear = 0
  · have hend' : ep.rs.epochNumberPerYear - ep.number % ep.rs.epochNumberPerYear - 1 = 0 := hend
    rw [if_pos hend, blocksPerEpoch_of_ne h.perYear h.perYear_lt timePerBlock_ne_zero,
      if_pos hend', if_pos hend, if_pos hend, if_pos (Or.inl hend)]
    rfl
  · have hmid : ¬ep.rs.epochNumberPerYear - ep.number % ep.rs.epochNumberPerYear - 1 = 0 := hend
    rw [if_neg hend, if_neg hmid, if_neg hend, if_neg hend]
    by_cases hpos : 0 < timeSub (L.addYears zeroEpoch.startTime
        (ep.number / ep.rs.epochNumberPerYear + 1)) lastBlockTime
    · rw [if_pos hpos, if_pos (Or.inr hpos)]
      change (blocksPerEpoch _ ep.epochLeftThisYear _ >>= _ : Go (ℤ × ℕ)) = _
      rw [blocksPerEpoch_of_ne (Nat.pos_of_ne_zero hend) hleft timePerBlock_ne_zero]
      rfl
    · rw [if_neg hpos, if_neg (not_or.2 ⟨hend, hpos⟩)]
      rfl

/-- **Blocks that take time**: the quotient is between `0` and a year, if the time per block is
positive and at most a year is left. -/
theorem signedBlocks_between (hblock : 0 < ep.timePerBlock lastBlockHeight lastBlockTime)
    (hpos : 1 ≤ ep.rs.epochNumberPerYear) (hlt : ep.rs.epochNumberPerYear < 2 ^ 63)
    (hnonneg : ep.epochLeftThisYear = 0 → 0 ≤ ep.timeLeft L initStartTime lastBlockTime)
    (hyear : ep.timeLeft L initStartTime lastBlockTime ≤ yearNanoseconds) :
    0 ≤ ep.signedBlocks L initStartTime lastBlockHeight lastBlockTime ∧
      ep.signedBlocks L initStartTime lastBlockHeight lastBlockTime ≤ yearNanoseconds := by
  have hleft : 0 < ep.epochsLeft ∧ ep.epochsLeft < 2 ^ 63 := by
    unfold epochsLeft epochLeftThisYear
    split_ifs <;> omega
  unfold signedBlocks
  split_ifs with htime
  · have hnonneg : 0 ≤ ep.timeLeft L initStartTime lastBlockTime := htime.elim hnonneg le_of_lt
    have hint : ep.timeLeft L initStartTime lastBlockTime ≤ maxInt := hyear.trans (by decide)
    have hshare := int64Quot_between hnonneg hint (y := ofUint64 ep.epochsLeft) <| by
      rw [ofUint64_of_le (by unfold maxInt; omega)]
      omega
    have hblocks := int64Quot_between hshare.1 (hshare.2.trans hint) hblock
    exact ⟨hblocks.1, (hblocks.2.trans hshare.2).trans hyear⟩
  · exact ⟨le_rfl, Int.natCast_nonneg _⟩

/-- **Blocks that take no time on average**: the quotient is negative, if the time of an epoch is
not shorter than what a block is ahead of the one before. -/
theorem signedBlocks_neg (hblock : ep.timePerBlock lastBlockHeight lastBlockTime < 0)
    (hlong : -ep.timePerBlock lastBlockHeight lastBlockTime ≤
      int64Quot (ep.timeLeft L initStartTime lastBlockTime) (ofUint64 ep.epochsLeft))
    (hleft : ep.epochLeftThisYear = 0 ∨ 0 < ep.timeLeft L initStartTime lastBlockTime) :
    ep.signedBlocks L initStartTime lastBlockHeight lastBlockTime < 0 := by
  unfold signedBlocks
  rw [if_pos hleft]
  exact int64Quot_neg (isInt_wrapInt _).2 hblock hlong

/-- What is expected of the next epoch: at least the emergency number of blocks and at most one
for each nanosecond of a year, the blocks after those of this epoch, and not more paid than the
reward of an epoch. -/
structure Bounded (ep : Epoch) (rewardPerBlock : ℤ) (blocks : ℕ) (next : EpochData) : Prop where
  emergency : emergencyBlocksOfNextEpoch ≤ blocks
  year : blocks ≤ yearNanoseconds
  startBlock : next.startBlock = ep.endBlock + 1
  endBlock : next.endBlock = ep.endBlock + blocks
  ordered : next.startBlock ≤ next.endBlock
  nonneg : 0 ≤ rewardPerBlock * blocks
  pays : rewardPerBlock * blocks ≤ ep.nextReward

/-- The quotient of the times is between `0` and a year, the last block of the next epoch has a
number, and there is a reward. -/
structure Estimable (L : EpochLibs) (ep : Epoch) (initStartTime : ℤ) (lastBlockHeight : ℕ)
    (lastBlockTime : ℤ) : Prop where
  nonneg : 0 ≤ ep.signedBlocks L initStartTime lastBlockHeight lastBlockTime
  year : ep.signedBlocks L initStartTime lastBlockHeight lastBlockTime ≤ yearNanoseconds
  ends : ep.endBlock + max emergencyBlocksOfNextEpoch
    (ep.signedBlocks L initStartTime lastBlockHeight lastBlockTime).toNat < 2 ^ 64
  reward : 0 ≤ ep.nextReward

/-- The conversion of a quotient keeps it between `0` and a year only if it was there. -/
theorem toUint64_le_year {x : ℤ} (hx : IsInt x) :
    toUint64 x ≤ yearNanoseconds ↔ 0 ≤ x ∧ x ≤ yearNanoseconds := by
  rw [isInt_iff] at hx
  unfold toUint64 yearNanoseconds
  omega

theorem isInt_signedBlocks :
    IsInt (ep.signedBlocks L initStartTime lastBlockHeight lastBlockTime) := by
  unfold signedBlocks
  split_ifs
  · exact isInt_wrapInt _
  · decide

/-- The first epoch of a node that was started at a time. -/
def startedAt (now : ℤ) : Epoch := initEpoch PlainEpoch.rs PlainEpoch.doc now

theorem proposable_startedAt (now : ℤ) : (startedAt now).Proposable now 1 where
  stored := ⟨_, Std.ExtTreeMap.getElem?_insert_self, rfl⟩
  perYear := (by decide : 1 ≤ 10)
  perYear_lt := (by decide : 10 < 2 ^ 64)
  height := Nat.one_pos
  height_lt := by decide
  previous _ hprev := by cases hprev

end Epoch
end Staking
end LigoChain
