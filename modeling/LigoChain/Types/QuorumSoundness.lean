/-
# Which rounds make an accepted quorum a majority

`VerifyCommit` and `blsVerifySignAggr` take the round of the quorum from the
message they check.  Between `firstSafeRound` and `math.MaxInt64` whatever they
accept is backed by more than half of the voting power.  Below `firstSafeRound`
the threshold is not positive (`Types/Threshold.lean`), and then the one signature
of the weaker half of a validator set passes both checks.

From round `0` on the quorums of any two rounds overlap (`quorum_intersection`): in how much
of the power depends on how far the two rounds have loosened it.
-/

import LigoChain.Lib.Majority
import LigoChain.Types.ValidatorSet
import LigoChain.Types.PlainLibs
import Mathlib.Algebra.Order.Field.Rat
import Mathlib.Tactic.Linarith
import Mathlib.Tactic.Ring

namespace LigoChain

open GoInt

/-- Some key can sign: alone in an aggregate, it has a valid signature on every message. -/
def Libs.CanSign (L : Libs) : Prop :=
  ∃ pk apk, L.blsPubKeyAggregate [pk] = some apk ∧ ∀ msg, ∃ sig, L.verifyBytes apk msg sig = true

/-- Whatever the two checks accept with `Round` equal to `round`, for a validator set of
positive power, has bits that hold strictly more than half of the power. -/
def MajorityAt (L : Libs) (round : ℤ) : Prop :=
  (∀ (valSet : ValidatorSet) (chainID : String) (height : ℕ) (commit : Commit),
    0 < valSet.totalPower → commit.round = round →
    valSet.verifyCommit L chainID height (some commit) = .ok (.ok ()) →
    ∃ bits, commit.bitArray = some bits ∧ valSet.totalPower < 2 * valSet.powerOf bits) ∧
  (∀ (valSet : ValidatorSet) (signAggr : SignAggr),
    0 < valSet.totalPower → signAggr.round = round →
    valSet.blsVerifySignAggr L signAggr = .ok true →
    ∃ bits, signAggr.bitArray = some bits ∧ valSet.totalPower < 2 * valSet.powerOf bits)

/-- The evidence of an accepted aggregate is a majority from `firstSafeRound` on. -/
theorem ValidatorSet.Quorum.majority {valSet : ValidatorSet} {L : Libs} {bits : BitArray}
    {round : ℤ} {msg : Bytes} {signature : Signature}
    (h : valSet.Quorum L bits round msg signature) (hpos : 0 < valSet.totalPower)
    (hround : firstSafeRound ≤ round) : valSet.totalPower < 2 * valSet.powerOf bits :=
  majority_lt_loose23MajorThreshold hpos hround h.threshold_le

theorem majorityAt_of_firstSafeRound_le (L : Libs) {round : ℤ} (h : firstSafeRound ≤ round) :
    MajorityAt L round := by
  constructor
  · rintro valSet chainID height commit hpos rfl hok
    obtain ⟨c, bits, hc, hbits, -, hq⟩ := valSet.verifyCommit_eq_ok hok
    cases hc
    exact ⟨bits, hbits, hq.majority hpos h⟩
  · rintro valSet signAggr hpos rfl hok
    obtain ⟨bits, signature, hbits, -, hq⟩ := valSet.blsVerifySignAggr_eq_true hok
    exact ⟨bits, hbits, hq.majority hpos h⟩

/-- Two validators of power `1`, the first with the key `pk`. -/
def twoValidators (pk : PubKey) : ValidatorSet where
  validators := [⟨[1], pk, 1, 0⟩, ⟨[2], [], 1, 0⟩]

/-- A commit for the zero block with the signature of the first of two validators. -/
def oneOfTwoCommit (round : ℤ) (sig : Signature) : Commit where
  blockID := BlockID.zero
  height := 1
  round := round
  signAggr := some sig
  bitArray := some [true, false]

/-- The message that the signature of `oneOfTwoCommit` is over. -/
def oneOfTwoVote (round : ℤ) : CanonicalJSONVote :=
  ⟨BlockID.zero, 1, toUint64 round, voteTypePrecommit⟩

/-- **One validator of two passes `VerifyCommit`** when the threshold is not positive. -/
theorem verifyCommit_oneOfTwo {L : Libs} {pk apk : PubKey} {sig : Signature} {round : ℤ}
    (hagg : L.blsPubKeyAggregate [pk] = some apk)
    (hver : L.verifyBytes apk (L.signBytes "" (oneOfTwoVote round)) sig = true)
    (hquorum : loose23MajorThreshold 2 round ≤ 0) :
    (twoValidators pk).verifyCommit L "" 1 (some (oneOfTwoCommit round sig)) = .ok (.ok ()) := by
  have hkeys : (twoValidators pk).aggrPubKey L (some [true, false]) = some apk := by
    simpa [twoValidators, ValidatorSet.aggrPubKey, ValidatorSet.size, ValidatorSet.pubKeysOf]
      using hagg
  have htally : (twoValidators pk).talliedVotingPower (some [true, false]) = .ok (1, 1, 2) := rfl
  have hsize : (twoValidators pk).size = 2 := rfl
  unfold oneOfTwoVote at hver
  simp [ValidatorSet.verifyCommit, oneOfTwoCommit, hsize, hkeys, hver, htally,
    ValidatorSet.bitArraySize, hquorum.trans zero_le_one]

/-- **Quorum soundness over every `int` round.**  For a signature library in which some
key can sign, what `VerifyCommit` and `blsVerifySignAggr` accept in a round is always a
majority exactly when `2*LooseRound-round` does not wrap around. -/
theorem majorityAt_iff {L : Libs} (hsign : L.CanSign) {round : ℤ} (hint : IsInt round) :
    MajorityAt L round ↔ firstSafeRound ≤ round := by
  refine ⟨fun hmaj => ?_, majorityAt_of_firstSafeRound_le L⟩
  by_contra hlt
  obtain ⟨pk, apk, hagg, hsig⟩ := hsign
  obtain ⟨sig, hver⟩ := hsig (L.signBytes "" (oneOfTwoVote round))
  have hquorum := @loose23MajorThreshold_nonpos 2 _ (by norm_num) hint (not_le.1 hlt)
  have hok := verifyCommit_oneOfTwo hagg hver hquorum
  -- the weaker half of the power is accepted, and it is not a majority
  have htotal : (twoValidators pk).totalPower = 2 := rfl
  have hhalf : (twoValidators pk).powerOf [true, false] = 1 := rfl
  obtain ⟨bits, hbits, hpow⟩ := hmaj.1 _ _ _ _ (by rw [htotal]; norm_num) rfl hok
  cases hbits
  rw [htotal, hhalf] at hpow
  omega

theorem plainLibs_canSign : plainLibs.CanSign :=
  ⟨[1], [1], rfl, fun msg => ⟨PlainLibs.sign [1] msg, by simp [plainLibs]⟩⟩

/-- The hypotheses of `majorityAt_iff` are satisfiable, on both sides of the line. -/
theorem majorityAt_iff_plainLibs :
    (MajorityAt plainLibs 0 ↔ firstSafeRound ≤ 0) ∧
      (MajorityAt plainLibs minInt ↔ firstSafeRound ≤ minInt) :=
  ⟨majorityAt_iff plainLibs_canSign (by decide), majorityAt_iff plainLibs_canSign (by decide)⟩

/-- **One of two equal validators makes a commit that `VerifyCommit` accepts** with
`Round` equal to `math.MinInt64`: half of the power, not more. -/
theorem verifyCommit_minInt_accepts_half :
    (twoValidators [1]).verifyCommit plainLibs "" 1
        (some (oneOfTwoCommit minInt
          (PlainLibs.sign [1] (plainLibs.signBytes "" (oneOfTwoVote minInt))))) = .ok (.ok ()) ∧
      (twoValidators [1]).totalPower = 2 ∧ (twoValidators [1]).powerOf [true, false] = 1 := by
  refine ⟨@verifyCommit_oneOfTwo _ _ [1] _ _ rfl (by simp [plainLibs]) ?_, rfl, rfl⟩
  exact loose23MajorThreshold_nonpos (by norm_num) (by decide) (by decide)

/-! ## Two quorums -/

theorem ValidatorSet.powerOf_eq_weight (valSet : ValidatorSet) (bits : BitArray) :
    valSet.powerOf bits = Majority.weight (valSet.validators.map Validator.votingPower) bits := by
  rw [ValidatorSet.powerOf, Majority.weight, List.zip_map_left, List.map_map]
  rfl

/-- Two sets of signers overlap in what they have over all the power. -/
theorem ValidatorSet.powerOf_inter {valSet : ValidatorSet}
    (hpower : ∀ val ∈ valSet.validators, 0 ≤ val.votingPower) {bits bits' : BitArray}
    (hbits : valSet.size = bits.length) (hbits' : valSet.size = bits'.length) :
    valSet.powerOf bits + valSet.powerOf bits' - valSet.totalPower ≤
      valSet.powerOf (List.zipWith and bits bits') := by
  have hws : ∀ w ∈ valSet.validators.map Validator.votingPower, 0 ≤ w := by
    simpa using hpower
  have hlen := valSet.validators.length_map Validator.votingPower
  have hsum := Majority.weight_add_weight (hbits.symm.trans hlen.symm) (hbits'.symm.trans hlen.symm)
  have hunion := Majority.weight_le_sum hws (List.zipWith or bits bits')
  simp only [powerOf_eq_weight, totalPower]
  omega

/-- **Any two quorums overlap.**  For signer sets that reach the thresholds of rounds `r` and
`r'`, the power of the signers of both is more than `T * (30 - min r 15 - min r' 15) / 90`: it
is positive in all rounds, and more than a third if both rounds are `0`. -/
theorem quorum_intersection {valSet : ValidatorSet}
    (hpower : ∀ val ∈ valSet.validators, 0 ≤ val.votingPower) (htotal : 1 ≤ valSet.totalPower)
    {bits bits' : BitArray} {count votes total count' votes' total' r r' : ℤ}
    (htally : valSet.talliedVotingPower (some bits) = .ok (count, votes, total))
    (htally' : valSet.talliedVotingPower (some bits') = .ok (count', votes', total'))
    (hr : 0 ≤ r) (hr' : 0 ≤ r') (hquorum : loose23MajorThreshold total r ≤ votes)
    (hquorum' : loose23MajorThreshold total' r' ≤ votes') :
    (valSet.totalPower * (30 - min r 15 - min r' 15) : ℚ) / 90 <
        valSet.powerOf (List.zipWith and bits bits') ∧
      0 < valSet.powerOf (List.zipWith and bits bits') ∧
      (r = 0 → r' = 0 →
        (valSet.totalPower : ℚ) / 3 < valSet.powerOf (List.zipWith and bits bits')) := by
  obtain ⟨_, heq, hbits, rfl, rfl⟩ := valSet.talliedVotingPower_eq_ok htally
  cases heq
  obtain ⟨_, heq', hbits', rfl, rfl⟩ := valSet.talliedVotingPower_eq_ok htally'
  cases heq'
  have hinter := valSet.powerOf_inter hpower hbits hbits'
  have hlow := lt_loose23MajorThreshold valSet.totalPower hr
  have hlow' := lt_loose23MajorThreshold valSet.totalPower hr'
  have hmain : valSet.totalPower * (30 - min r 15 - min r' 15) <
      90 * valSet.powerOf (List.zipWith and bits bits') := by
    have hsplit : valSet.totalPower * (30 - min r 15 - min r' 15) =
        valSet.totalPower * (60 - min r 15) + valSet.totalPower * (60 - min r' 15) -
          90 * valSet.totalPower := by ring
    omega
  have hrat : (valSet.totalPower * (30 - min r 15 - min r' 15) : ℚ) <
      90 * valSet.powerOf (List.zipWith and bits bits') := by exact_mod_cast hmain
  refine ⟨by linarith, ?_, fun h h' => ?_⟩
  · have hloose : 0 ≤ valSet.totalPower * (30 - min r 15 - min r' 15) :=
      mul_nonneg (by omega) (by omega)
    omega
  · subst h h'
    norm_num at hrat
    linarith

/-- Two of three validators of power `1`, and another two, in rounds `0` and `20`. -/
theorem quorum_intersection_threeValidators :
    let valSet : ValidatorSet := ⟨[⟨[1], [], 1, 0⟩, ⟨[2], [], 1, 0⟩, ⟨[3], [], 1, 0⟩]⟩
    (valSet.totalPower * (30 - min 0 15 - min 20 15) : ℚ) / 90 <
        valSet.powerOf (List.zipWith and [true, true, true] [false, true, true]) := by
  intro valSet
  exact (@quorum_intersection valSet (by decide) (by decide) _ _ _ _ _ _ _ _ 0 20 rfl rfl
    (by decide) (by decide) (by decide) (by decide)).1

end LigoChain
