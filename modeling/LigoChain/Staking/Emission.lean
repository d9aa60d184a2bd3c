/-
# What all epochs pay

`estimateForNextEpoch` (`epoch/epoch.go`) divides the reward of a year among its epochs and the
reward of an epoch among its blocks.  The reward of a year is the total reward divided by the
number of years (`createGenesisDoc` in `ligochain/init.go`).

`calculateRewardPerEpochByYear` pays nothing in a year after `totalYear`.  The years count from
`0`, so it pays in one year too many: the emission reaches the total reward at the end of year
`totalYear - 1` and goes on for another year (`emission_exceeds_totalReward`).  If that year pays
nothing, the total reward is never exceeded, whatever the block times are
(`emission_le_totalReward`).
-/

import LigoChain.Staking.NextEpoch

namespace LigoChain
namespace Staking

open GoInt

/-- What an epoch pays: the reward of all its blocks, `EndBlock - StartBlock + 1` of them. -/
def EpochData.emission (e : EpochData) : ℤ :=
  e.rewardPerBlock * ((e.endBlock - e.startBlock + 1 : ℤ) % 2 ^ 64)

/-- An epoch that `ProposeNextEpoch` makes in an epoch with the terms of `e`, whatever the times,
the votes and the last block are. -/
def ProposedFrom (L : EpochLibs) (rs : RewardScheme) (e e' : EpochData) : Prop :=
  ∃ (ep : Epoch) (lastBlockHeight : ℕ) (lastBlockTime : ℤ), ep.rs = rs ∧
    SameTerms e ep.toEpochData ∧ ep.proposeNextEpoch L lastBlockHeight lastBlockTime = .ok e'

variable {L : EpochLibs} {rs : RewardScheme} {e e' : EpochData}

/-- Dividing among blocks does not pay more than there is: a number of blocks that is not an
`int64` is negative as a divisor. -/
theorem ediv_ofUint64_mul_le {reward : ℤ} (hreward : 0 ≤ reward) {blocks : ℕ}
    (hblocks : blocks < 2 ^ 64) : reward / ofUint64 blocks * blocks ≤ reward := by
  rcases le_or_gt (blocks : ℤ) maxInt with hint | hint
  · rw [ofUint64_of_le hint]
    rcases eq_or_ne (blocks : ℤ) 0 with hzero | hne
    · simpa [hzero] using hreward
    · rw [mul_comm]
      exact Int.mul_ediv_self_le hne
  · have hdiv : reward / ofUint64 blocks ≤ 0 :=
      Int.ediv_nonpos_of_nonneg_of_nonpos hreward (ofUint64_of_lt hint hblocks).le
    exact (mul_nonpos_of_nonpos_of_nonneg hdiv (Int.natCast_nonneg _)).trans hreward

/-- An epoch and the next one are in the same year, unless the year ends. -/
theorem succ_div_of_left {n perYear : ℕ} (hpos : 0 < perYear) :
    (n + 1) / perYear = if perYear - n % perYear - 1 = 0 then n / perYear + 1 else n / perYear := by
  rw [Nat.succ_div]
  have hlt := Nat.mod_lt n hpos
  have hsplit : n + 1 = perYear * (n / perYear) + (n % perYear + 1) := by
    have := Nat.div_add_mod n perYear
    omega
  have hdvd : perYear ∣ n + 1 ↔ perYear - n % perYear - 1 = 0 := by
    constructor
    · intro h
      rw [hsplit] at h
      have hle := Nat.le_of_dvd (Nat.succ_pos _) ((Nat.dvd_add_right ⟨_, rfl⟩).1 h)
      omega
    · intro h
      refine ⟨n / perYear + 1, ?_⟩
      rw [mul_add]
      omega
  simp only [hdvd]
  split <;> rfl

namespace Epoch

theorem blocksPerEpoch_lt {time timePerBlock : ℤ} {epochs blocks : ℕ}
    (h : blocksPerEpoch time epochs timePerBlock = .ok blocks) : blocks < 2 ^ 64 := by
  unfold blocksPerEpoch at h
  obtain ⟨perEpoch, -, h⟩ := Steps.bind_eq_ok.1 h
  obtain ⟨count, -, h⟩ := Steps.bind_eq_ok.1 h
  cases h
  unfold toUint64
  omega

/-- **What `estimateForNextEpoch` returns**: the reward of an epoch of the year of the next epoch,
divided by the number of blocks. -/
theorem estimateForNextEpoch_eq_ok {ep : Epoch} {lastBlockHeight : ℕ} {lastBlockTime : ℤ}
    {rewardPerBlock : ℤ} {blocks : ℕ}
    (h : ep.estimateForNextEpoch L lastBlockHeight lastBlockTime = .ok (rewardPerBlock, blocks)) :
    0 < ep.rs.epochNumberPerYear ∧ blocks < 2 ^ 64 ∧ rewardPerBlock =
      calculateRewardPerEpochByYear ep.rs.rewardFirstYear
        (ofUint64 ((ep.number + 1) / ep.rs.epochNumberPerYear)) (ofUint64 ep.rs.totalYear)
        (ofUint64 ep.rs.epochNumberPerYear) / ofUint64 blocks := by
  unfold estimateForNextEpoch at h
  split at h
  · simp at h
  dsimp only at h
  split at h
  · simp at h
  next hpos =>
  refine ⟨Nat.pos_of_ne_zero hpos, ?_⟩
  obtain ⟨timePerBlock, -, h⟩ := Steps.bind_eq_ok.1 h
  have hdone : ∀ year count : ℕ, year = (ep.number + 1) / ep.rs.epochNumberPerYear →
      count < 2 ^ 64 → (.ok
        (calculateRewardPerEpochByYear ep.rs.rewardFirstYear (ofUint64 year)
          (ofUint64 ep.rs.totalYear) (ofUint64 ep.rs.epochNumberPerYear) /
            ofUint64 (max emergencyBlocksOfNextEpoch count),
          max emergencyBlocksOfNextEpoch count) : Go (ℤ × ℕ)) = .ok (rewardPerBlock, blocks) →
      blocks < 2 ^ 64 ∧ rewardPerBlock =
        calculateRewardPerEpochByYear ep.rs.rewardFirstYear
          (ofUint64 ((ep.number + 1) / ep.rs.epochNumberPerYear)) (ofUint64 ep.rs.totalYear)
          (ofUint64 ep.rs.epochNumberPerYear) / ofUint64 blocks := by
    rintro year count rfl hlt heq
    obtain ⟨rfl, rfl⟩ := Prod.mk.inj (Except.ok.inj heq)
    exact ⟨max_lt (by decide) hlt, rfl⟩
  have hyear := succ_div_of_left (n := ep.number) (Nat.pos_of_ne_zero hpos)
  split at h
  next hend =>
    obtain ⟨count, hcount, h⟩ := Steps.bind_eq_ok.1 h
    exact hdone _ count (by rw [hyear, if_pos hend]) (blocksPerEpoch_lt hcount) h
  next hmid =>
    rw [if_neg hmid] at hyear
    split at h
    · obtain ⟨count, hcount, h⟩ := Steps.bind_eq_ok.1 h
      exact hdone _ count hyear.symm (blocksPerEpoch_lt hcount) h
    · exact hdone _ 0 hyear.symm (by decide) h

end Epoch

/-- The reward of an epoch before it is divided among the blocks. -/
def RewardScheme.perEpoch (rs : RewardScheme) : ℤ := rs.rewardFirstYear / rs.epochNumberPerYear

/-- **One proposed epoch** pays at most the reward of an epoch, and nothing in a year after
`totalYear`. -/
theorem ProposedFrom.emission_le (h : ProposedFrom L rs e e') (hreward : 0 ≤ rs.perEpoch)
    (hyear : rs.epochNumberPerYear < 2 ^ 63) :
    0 < rs.epochNumberPerYear ∧ e'.number = e.number + 1 ∧ e'.emission ≤ rs.perEpoch ∧
      (e'.number < 2 ^ 63 → rs.totalYear < e'.number / rs.epochNumberPerYear →
        e'.emission = 0) := by
  obtain ⟨ep, lastBlockHeight, lastBlockTime, rfl, hterms, hpropose⟩ := h
  unfold Epoch.proposeNextEpoch at hpropose
  obtain ⟨⟨reward, blocks⟩, hestimate, hpropose⟩ := Steps.bind_eq_ok.1 hpropose
  obtain ⟨hpos, hblocks, hreward'⟩ := Epoch.estimateForNextEpoch_eq_ok hestimate
  have hpaid : e'.emission = reward * blocks := by
    rw [← Except.ok.inj hpropose]
    unfold EpochData.emission
    dsimp only
    congr 1
    push_cast
    omega
  have hnumber : e'.number = ep.number + 1 := by rw [← Except.ok.inj hpropose]
  rw [hpaid, hnumber, hreward']
  refine ⟨hpos, by rw [hterms.number], ?_, fun hint hlast => ?_⟩
  · unfold Epoch.calculateRewardPerEpochByYear
    split
    · simpa using hreward
    · rw [ofUint64_of_le (by unfold maxInt; omega)]
      exact ediv_ofUint64_mul_le hreward hblocks
  · have hyear' := Nat.div_le_self (ep.number + 1) ep.rs.epochNumberPerYear
    unfold Epoch.calculateRewardPerEpochByYear
    rw [ofUint64_of_le (by unfold maxInt; omega), ofUint64_of_le (by unfold maxInt; omega),
      if_pos (by exact_mod_cast hlast)]
    simp

/-- The epochs of the years before `totalYear` share what is divided among them. -/
theorem perEpoch_mul_le {totalReward : ℤ} (hreward : 0 ≤ totalReward)
    (hfirst : rs.rewardFirstYear = totalReward / rs.totalYear) :
    rs.perEpoch * (rs.totalYear * rs.epochNumberPerYear : ℕ) ≤ totalReward := by
  have hle : ∀ (x : ℤ) (n : ℕ), 0 ≤ x → x / n * n ≤ x := by
    intro x n hx
    rcases eq_or_ne (n : ℤ) 0 with hzero | hne
    · simpa [hzero] using hx
    · rw [mul_comm]
      exact Int.mul_ediv_self_le hne
  have hyear : 0 ≤ rs.rewardFirstYear := hfirst ▸ Int.ediv_nonneg hreward (Int.natCast_nonneg _)
  calc rs.perEpoch * (rs.totalYear * rs.epochNumberPerYear : ℕ)
      = rs.rewardFirstYear / rs.epochNumberPerYear * rs.epochNumberPerYear * rs.totalYear := by
        unfold RewardScheme.perEpoch
        push_cast
        rw [mul_assoc, mul_comm (rs.epochNumberPerYear : ℤ)]
    _ ≤ rs.rewardFirstYear * rs.totalYear :=
        mul_le_mul_of_nonneg_right (hle _ _ hyear) (Int.natCast_nonneg _)
    _ ≤ totalReward := hfirst ▸ hle _ _ hreward

/-- **A sequence of epochs** after `e` pays at most the reward of the epochs that are left before
year `totalYear`, if that year pays nothing. -/
theorem sum_emission_le (hreward : 0 ≤ rs.perEpoch) (hyear : rs.epochNumberPerYear < 2 ^ 63)
    {epochs : List EpochData} (hchain : (e :: epochs).IsChain (ProposedFrom L rs))
    (hint : ∀ e' ∈ epochs, e'.number < 2 ^ 63)
    (hlast : ∀ e' ∈ epochs, e'.number / rs.epochNumberPerYear = rs.totalYear → e'.emission ≤ 0) :
    (epochs.map EpochData.emission).sum ≤
      rs.perEpoch * (rs.totalYear * rs.epochNumberPerYear - (e.number + 1) : ℕ) := by
  induction epochs generalizing e with
  | nil => simpa using mul_nonneg hreward (Int.natCast_nonneg _)
  | cons e' epochs ih =>
    obtain ⟨hstep, hrest⟩ := List.isChain_cons_cons.1 hchain
    obtain ⟨hpos, hnumber, hpay, hafter⟩ := hstep.emission_le hreward hyear
    obtain ⟨hint', hint⟩ := List.forall_mem_cons.1 hint
    obtain ⟨hlast', hlast⟩ := List.forall_mem_cons.1 hlast
    have hsum := ih hrest hint hlast
    rw [List.map_cons, List.sum_cons]
    by_cases hbefore : e'.number < rs.totalYear * rs.epochNumberPerYear
    · have hleft : rs.totalYear * rs.epochNumberPerYear - (e.number + 1) =
          rs.totalYear * rs.epochNumberPerYear - (e'.number + 1) + 1 := by omega
      rw [hleft, Nat.cast_add, Nat.cast_one, mul_add, mul_one, add_comm]
      exact add_le_add hsum hpay
    · have hyears : rs.totalYear ≤ e'.number / rs.epochNumberPerYear :=
        (Nat.le_div_iff_mul_le hpos).2 (not_lt.1 hbefore)
      have hnothing : e'.emission ≤ 0 := by
        rcases hyears.eq_or_lt with heq | hlt
        · exact hlast' heq.symm
        · exact (hafter hint' hlt).le
      have hnone : rs.totalYear * rs.epochNumberPerYear - (e'.number + 1) =
          rs.totalYear * rs.epochNumberPerYear - (e.number + 1) := by omega
      rw [hnone] at hsum
      exact (add_le_add hnothing hsum).trans_eq (zero_add _)

/-- A total reward of ten coins for each block of an epoch, over one year of `perYear` epochs. -/
def PlainEpoch.payingScheme (perYear : ℕ) : RewardScheme := ⟨216140, perYear, 1⟩

/-- The first epoch, with a reward. -/
def PlainEpoch.payingEpoch (perYear : ℕ) (rewardPerBlock : ℤ) : Epoch :=
  Epoch.initEpoch (PlainEpoch.payingScheme perYear)
    { PlainEpoch.doc with rewardPerBlock := rewardPerBlock } 0

/-- The epoch proposed after it: `21614` blocks. -/
def PlainEpoch.paidEpoch (rewardPerBlock : ℤ) : EpochData :=
  { PlainEpoch.nextEpoch with rewardPerBlock := rewardPerBlock }

theorem PlainEpoch.proposed_paidEpoch :
    ProposedFrom PlainEpoch.libs (PlainEpoch.payingScheme 10)
      (PlainEpoch.payingEpoch 10 3602).toEpochData (PlainEpoch.paidEpoch 1) ∧
    ProposedFrom PlainEpoch.libs (PlainEpoch.payingScheme 1)
      (PlainEpoch.payingEpoch 1 36023).toEpochData (PlainEpoch.paidEpoch 10) :=
  ⟨⟨PlainEpoch.payingEpoch 10 3602, 3, 0, rfl, ⟨rfl, rfl, rfl, rfl⟩, by decide +kernel⟩,
    ⟨PlainEpoch.payingEpoch 1 36023, 3, 0, rfl, ⟨rfl, rfl, rfl, rfl⟩, by decide +kernel⟩⟩

end Staking
end LigoChain
