/-
# The loosened two-thirds quorum

`Loose23MajorThreshold` in `chain/consensus/tendermint/types/vote_set.go`.  In
round `0` the quorum is just over `2/3` of the voting power; each round lowers
it by one ninetieth of the power until round `15`, where it is just over one half.
The comment over the function asks for the maximum of that value and
`totalVotingPower/2 + 1`, and the cap at round `15` is how the body gets it.

The body caps the round from above only, and `2*LooseRound-round` is computed in
`int`.  A negative round makes the quorum larger, until the difference leaves the
range of `int`: for the 61 smallest `int` values it comes out negative, and so
does the quorum.  `majority_lt_loose23MajorThreshold` and
`loose23MajorThreshold_nonpos` are the two sides of that line, `firstSafeRound`.
-/

import LigoChain.Lib.GoInt

namespace LigoChain

open GoInt

/-- `LooseRound`. -/
def looseRound : ℤ := 30

/-- `HalfLooseRound`. -/
def halfLooseRound : ℤ := 15

/-- `Loose23MajorThreshold`.  `big.Int.Div` is Euclidean division, as `/` on `ℤ` is. -/
def loose23MajorThreshold (totalVotingPower : ℤ) (round : ℤ) : ℤ :=
  let round := if round ≥ halfLooseRound then halfLooseRound else round
  (totalVotingPower * wrapInt (2 * looseRound - round) + 3 * looseRound) / (3 * looseRound)

/-- The smallest round whose difference `2*LooseRound-round` is still an `int`. -/
def firstSafeRound : ℤ := minInt + 61

theorem firstSafeRound_eq : firstSafeRound = -9223372036854775747 := by
  norm_num [firstSafeRound, minInt]

/-- From `firstSafeRound` on, the coefficient of the quorum is at least `45`. -/
theorem coefficient_ge {round : ℤ} (h : firstSafeRound ≤ round) :
    45 ≤ wrapInt (2 * looseRound - if round ≥ halfLooseRound then halfLooseRound else round) := by
  rw [firstSafeRound_eq] at h
  unfold looseRound halfLooseRound
  split_ifs with hr
  · rw [wrapInt_of_isInt (by rw [isInt_iff]; omega)]
    norm_num
  · rw [wrapInt_of_isInt (by rw [isInt_iff]; omega)]
    omega

/-- **From `firstSafeRound` on a quorum is more than half of a positive power.** -/
theorem majority_lt_loose23MajorThreshold {total round votes : ℤ} (htotal : 0 < total)
    (h : firstSafeRound ≤ round) (hvotes : loose23MajorThreshold total round ≤ votes) :
    total < 2 * votes := by
  have hc := coefficient_ge h
  simp only [loose23MajorThreshold, looseRound] at hc hvotes
  generalize wrapInt _ = c at hc hvotes
  have hmul : total * 45 ≤ total * c := mul_le_mul_of_nonneg_left hc htotal.le
  omega

/-- **Below `firstSafeRound` the subtraction wraps around** and, for a positive
power, no vote at all is a quorum. -/
theorem loose23MajorThreshold_nonpos {total round : ℤ} (htotal : 0 < total)
    (hint : IsInt round) (h : round < firstSafeRound) :
    loose23MajorThreshold total round ≤ 0 := by
  rw [firstSafeRound_eq] at h
  rw [isInt_iff] at hint
  have hnot : ¬ round ≥ halfLooseRound := by unfold halfLooseRound; omega
  have hwrap : wrapInt (2 * looseRound - round) = 2 * looseRound - round - 2 ^ 64 :=
    wrapInt_of_overflow (by norm_num [looseRound, maxInt]; omega)
      (by norm_num [looseRound, maxInt]; omega)
  have hc : wrapInt (2 * looseRound - round) ≤ -90 := by
    rw [hwrap]
    norm_num [looseRound]
    omega
  unfold loose23MajorThreshold
  simp only [if_neg hnot]
  have hmul : total * wrapInt (2 * looseRound - round) ≤ total * (-90) :=
    mul_le_mul_of_nonneg_left hc htotal.le
  unfold looseRound at hmul ⊢
  omega

/-- The quorum from round `0` on. -/
theorem loose23MajorThreshold_of_nonneg (total : ℤ) {round : ℤ} (h : 0 ≤ round) :
    loose23MajorThreshold total round = (total * (60 - min round 15) + 90) / 90 := by
  unfold loose23MajorThreshold looseRound halfLooseRound
  have hmin : (if round ≥ 15 then (15 : ℤ) else round) = min round 15 := by split_ifs <;> omega
  simp only [hmin]
  rw [wrapInt_of_isInt (by rw [isInt_iff]; omega)]
  norm_num

theorem lt_loose23MajorThreshold (total : ℤ) {round : ℤ} (h : 0 ≤ round) :
    total * (60 - min round 15) < 90 * loose23MajorThreshold total round := by
  rw [loose23MajorThreshold_of_nonneg total h]
  omega

end LigoChain
