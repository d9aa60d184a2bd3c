/-
# The draw of the proposer

`proposerByVRF` in `consensus/state.go` adds up the powers, takes the hash value modulo the sum, and
subtracts the powers one after the other until the rest is negative.  So each validator owns as
many residues as it has power (`vrfIndex_iff`), and a validator without power owns none.

The later rounds of a height count on from the validator that was drawn (`proposerByRound`).  The
sum of the index and the round is an `int`: where it overflows the remainder is not positive, and
the node panics or starts again at the first validator.  `proposers_visit_all_iff` says exactly for
which rounds that is.
-/

import LigoChain.Consensus.Proposer
import Mathlib.Data.Int.Interval
import Mathlib.Data.Set.Card

namespace LigoChain

namespace Consensus

open GoInt ConsensusState

variable {vals : List Validator}

/-! ## The residues of a validator -/

/-- The power of the validators before an index. -/
def powerBefore (vals : List Validator) (i : ℕ) : ℤ :=
  ((vals.take i).map Validator.votingPower).sum

@[simp] theorem powerBefore_zero (vals : List Validator) : powerBefore vals 0 = 0 := rfl

@[simp] theorem powerBefore_cons_succ (val : Validator) (vals : List Validator) (i : ℕ) :
    powerBefore (val :: vals) (i + 1) = val.votingPower + powerBefore vals i := rfl

theorem powerBefore_nonneg (h : ∀ v ∈ vals, 0 ≤ v.votingPower) (i : ℕ) : 0 ≤ powerBefore vals i := by
  refine List.sum_nonneg fun x hx => ?_
  obtain ⟨v, hv, rfl⟩ := List.mem_map.1 hx
  exact h v (List.mem_of_mem_take hv)

theorem powerBefore_succ {i : ℕ} {val : Validator} (h : vals[i]? = some val) :
    powerBefore vals (i + 1) = powerBefore vals i + val.votingPower := by
  unfold powerBefore
  rw [List.take_add_one, h, List.map_append, List.sum_append]
  simp

theorem vrfIndex_ge (n : ℤ) (vals : List Validator) (k : ℕ) :
    vrfIndex n vals k = -1 ∨ (k : ℤ) ≤ vrfIndex n vals k := by
  induction vals generalizing n k with
  | nil => exact .inl rfl
  | cons val vals ih =>
    unfold vrfIndex
    split_ifs
    · exact .inr le_rfl
    · have := ih (n - val.votingPower) (k + 1)
      push_cast at this
      omega

/-- **The loop finds the validator in whose share the number lies**, and no other. -/
theorem vrfIndex_iff (hpos : ∀ v ∈ vals, 0 ≤ v.votingPower) {n : ℤ} (h0 : 0 ≤ n)
    (hn : n < (vals.map Validator.votingPower).sum) (k i : ℕ) :
    vrfIndex n vals k = k + i ↔
      i < vals.length ∧ powerBefore vals i ≤ n ∧ n < powerBefore vals (i + 1) := by
  induction vals generalizing n k i with
  | nil => exact absurd hn (not_lt.2 h0)
  | cons val vals ih =>
    have hrest : ∀ v ∈ vals, 0 ≤ v.votingPower := fun v hv => hpos v (.tail _ hv)
    rw [List.map_cons, List.sum_cons] at hn
    unfold vrfIndex
    split_ifs with hneg
    · cases i with
      | zero =>
        have hlt : n < val.votingPower := by omega
        simpa using ⟨h0, hlt⟩
      | succ i =>
        have hbefore := powerBefore_nonneg hrest i
        rw [powerBefore_cons_succ]
        omega
    · cases i with
      | zero =>
        have hge := vrfIndex_ge (n - val.votingPower) vals (k + 1)
        simp only [powerBefore_cons_succ, powerBefore_zero]
        push_cast at hge ⊢
        omega
      | succ i =>
        have hshift : ((k + 1 : ℕ) : ℤ) + i = k + (i + 1 : ℕ) := by push_cast; ring
        rw [← hshift, ih hrest (by omega) (by omega) (k + 1) i, List.length_cons,
          powerBefore_cons_succ, powerBefore_cons_succ]
        omega

/-- Every number below the sum lies in the share of a validator. -/
theorem exists_share {n : ℤ} (h0 : 0 ≤ n) (hn : n < (vals.map Validator.votingPower).sum) :
    ∃ i, i < vals.length ∧ powerBefore vals i ≤ n ∧ n < powerBefore vals (i + 1) := by
  induction vals generalizing n with
  | nil => exact absurd hn (not_lt.2 h0)
  | cons val vals ih =>
    by_cases hlt : n < val.votingPower
    · exact ⟨0, by simp, h0, by simpa using hlt⟩
    · rw [List.map_cons, List.sum_cons] at hn
      obtain ⟨i, hi, hle, hlt'⟩ := @ih (n - val.votingPower) (by omega) (by omega)
      refine ⟨i + 1, by simpa using hi, ?_, ?_⟩
      · rw [powerBefore_cons_succ]
        omega
      · rw [powerBefore_cons_succ]
        omega

/-- The number that the hash of a header stands for. -/
def hashValue (L : Libs) (headerHash : Bytes) : ℤ :=
  (L.sha256 (List.replicate 8 0 ++ headerHash)).foldl (fun n b => n * 256 + b.toNat) 0

section Draw

variable {vals : List Validator} (hpos : ∀ v ∈ vals, 0 ≤ v.votingPower)
  (htotal : 0 < (vals.map Validator.votingPower).sum)

include hpos htotal in
/-- The validator that is drawn: the one whose share has the residue of the hash. -/
theorem proposerByVRF_spec (L : Libs) (headerHash : Bytes) :
    ∃ i : ℕ, proposerByVRF L headerHash vals = .ok (i : ℤ) ∧
      ∀ j, (j < vals.length ∧
        powerBefore vals j ≤ hashValue L headerHash % (vals.map Validator.votingPower).sum ∧
        hashValue L headerHash % (vals.map Validator.votingPower).sum < powerBefore vals (j + 1)) ↔
          j = i := by
  have h0 := Int.emod_nonneg (hashValue L headerHash) htotal.ne'
  have hlt := Int.emod_lt_of_pos (hashValue L headerHash) htotal
  obtain ⟨i, hi⟩ := exists_share h0 hlt
  have hdrawn := (vrfIndex_iff hpos h0 hlt 0 i).2 hi
  refine ⟨i, ?_, fun j => ?_⟩
  · unfold proposerByVRF
    dsimp only
    rw [if_neg htotal.ne', ← zero_add (i : ℤ)]
    exact congrArg Except.ok hdrawn
  · rw [← vrfIndex_iff hpos h0 hlt 0 j, hdrawn]
    omega

include hpos in
/-- **A validator owns as many residues as it has power.** -/
theorem ncard_residues {i : ℕ} {val : Validator} (hval : vals[i]? = some val) :
    ({n : ℤ | 0 ≤ n ∧ n < (vals.map Validator.votingPower).sum ∧ vrfIndex n vals 0 = i}.ncard : ℤ) =
      val.votingPower := by
  have hi : i < vals.length := (List.getElem?_eq_some_iff.1 hval).1
  have hsucc := powerBefore_succ hval
  have hval0 : 0 ≤ val.votingPower := hpos val (List.mem_of_getElem? hval)
  have hbefore := powerBefore_nonneg hpos i
  have hafter : powerBefore vals (i + 1) ≤ (vals.map Validator.votingPower).sum := by
    rw [← List.take_append_drop (i + 1) vals, List.map_append, List.sum_append,
      List.take_append_drop]
    refine le_add_of_nonneg_right (List.sum_nonneg fun x hx => ?_)
    obtain ⟨v, hv, rfl⟩ := List.mem_map.1 hx
    exact hpos v (List.mem_of_mem_drop hv)
  have hset : {n : ℤ | 0 ≤ n ∧ n < (vals.map Validator.votingPower).sum ∧
      vrfIndex n vals 0 = i} =
        ↑(Finset.Ico (powerBefore vals i) (powerBefore vals (i + 1))) := by
    ext n
    rw [Finset.coe_Ico, Set.mem_Ico, Set.mem_ofPred_eq]
    constructor
    · rintro ⟨h0, hn, hidx⟩
      exact ((vrfIndex_iff hpos h0 hn 0 i).1 (by simpa using hidx)).2
    · rintro ⟨hle, hlt⟩
      have h0 : 0 ≤ n := hbefore.trans hle
      have hn := hlt.trans_le hafter
      exact ⟨h0, hn, by simpa using (vrfIndex_iff hpos h0 hn 0 i).2 ⟨hi, hle, hlt⟩⟩
  rw [hset, Set.ncard_coe_finset, Int.card_Ico, hsucc]
  omega

end Draw

/-! ## The rounds of a height -/

/-- The node has the headers that it draws from. -/
def KnowsHeaders (env : Env) (now : ℤ) : Prop :=
  (env.currentHeader now).2 = env.epochStartBlock ∨
    0 < (env.currentHeader now).2 ∧
      (env.headerHashByNumber now ((env.currentHeader now).2 - 1)).isSome = true

/-- `proposerByRound` returns an index. -/
def Proposes (env : Env) (now : ℤ) (cs : ConsensusState) (round idx : ℤ) : Prop :=
  ∃ cs' proposer, proposerByRound env now cs round = .ok (cs', proposer) ∧ proposer.valIndex = idx

/-- The validators are visited in the rounds from one on: each round has a proposer, and each
validator has one round. -/
def VisitsAll (env : Env) (now : ℤ) (cs : ConsensusState) (first : ℤ) : Prop :=
  (∀ round, first ≤ round → round < first + cs.validators.size →
    ∃ idx : ℤ, 0 ≤ idx ∧ idx < cs.validators.size ∧ Proposes env now cs round idx) ∧
  ∀ idx : ℤ, 0 ≤ idx → idx < cs.validators.size →
    ∃! round, first ≤ round ∧ round < first + cs.validators.size ∧ Proposes env now cs round idx

section Rounds

variable {env : Env} {now : ℤ} {cs : ConsensusState}

/-- The proposer of round `0` is drawn, and kept. -/
theorem proposerByRound_draws
    (hpos : ∀ v ∈ cs.validators.validators, 0 ≤ v.votingPower)
    (htotal : 0 < (cs.validators.validators.map Validator.votingPower).sum)
    (hheaders : KnowsHeaders env now) (hnew : cs.vrfValIndex < 0) :
    ∃ (idx : ℤ) (val : Validator), 0 ≤ idx ∧ idx < cs.validators.size ∧
      proposerByRound env now cs 0 =
        .ok ({ cs with vrfValIndex := idx }, ⟨cs.height, 0, idx, val⟩) := by
  have hdraw : ∀ hash, ∃ i : ℕ, proposerByVRF env.libs hash cs.validators.validators = .ok (i : ℤ) ∧
      i < cs.validators.validators.length := fun hash => by
    obtain ⟨i, hi, hspec⟩ := proposerByVRF_spec hpos htotal env.libs hash
    exact ⟨i, hi, ((hspec i).2 rfl).1⟩
  obtain ⟨last, cur, hvrf, hcur⟩ : ∃ (last : ℤ) (cur : ℕ),
      proposersByVRF env now cs = .ok (last, (cur : ℤ)) ∧ cur < cs.validators.validators.length := by
    obtain ⟨cur, hcur, hlt⟩ := hdraw (env.currentHeader now).1
    unfold proposersByVRF
    dsimp only
    rw [hcur]
    by_cases hstart : (env.currentHeader now).2 = env.epochStartBlock
    · exact ⟨-1, cur, by simp [hstart, bind, Except.bind], hlt⟩
    · obtain ⟨hheight, hknown⟩ := hheaders.resolve_left hstart
      obtain ⟨hash, hhash⟩ := Option.isSome_iff_exists.1 hknown
      obtain ⟨last, hlast, -⟩ := hdraw hash
      exact ⟨last, cur, by simp [hstart, hheight, hhash, hlast, bind, Except.bind], hlt⟩
  have hsize : (cs.validators.validators.length : ℤ) = cs.validators.size := rfl
  obtain ⟨idx, hidx, h0, hlt⟩ : ∃ idx : ℤ, vrfProposerIndex env now cs = .ok idx ∧ 0 ≤ idx ∧
      idx < cs.validators.size := by
    by_cases hover : PassesOver env now cs
    · obtain ⟨drawn, hdrawn, h0, hidx⟩ := vrfProposerIndex_of_passesOver hnew hover
      refine ⟨_, hidx, ?_, ?_⟩
      · exact Int.tmod_nonneg _ (by omega)
      · exact Int.tmod_lt_of_pos _ (by omega)
    · refine ⟨cur, ?_, by omega, by omega⟩
      rw [vrfProposerIndex_of_not_passesOver hnew hover, hvrf]
      rfl
  have hnat : idx.toNat < cs.validators.validators.length := by omega
  refine ⟨idx, cs.validators.validators[idx.toNat], h0, hlt, ?_⟩
  unfold proposerByRound proposerIndex
  simp only [if_true, hidx, bind, Except.bind, not_lt.2 h0, if_false]
  rw [List.getElem?_eq_getElem hnat]

/-- The index of a later round, where one has been drawn. -/
theorem proposes_iff (h0 : 0 ≤ cs.vrfValIndex) (hlt : cs.vrfValIndex < cs.validators.size)
    {round : ℤ} (hround : round ≠ 0) (idx : ℤ) :
    Proposes env now cs round idx ↔
      0 ≤ idx ∧ (wrapInt (cs.vrfValIndex + round)).tmod cs.validators.size = idx := by
  have hsize : (cs.validators.validators.length : ℤ) = cs.validators.size := rfl
  unfold Proposes proposerByRound proposerIndex
  rw [if_neg hround, if_neg (not_lt.2 h0), if_neg (by omega)]
  simp only [bind, Except.bind]
  have hbound := Int.tmod_lt_of_pos (wrapInt (cs.vrfValIndex + round))
    (show (0 : ℤ) < cs.validators.size by omega)
  generalize (wrapInt (cs.vrfValIndex + round)).tmod cs.validators.size = x at hbound
  split_ifs with hneg
  · refine iff_of_false (fun ⟨_, _, h, _⟩ => by cases h) fun h => ?_
    omega
  · rw [List.getElem?_eq_getElem (show x.toNat < cs.validators.validators.length by omega)]
    constructor
    · rintro ⟨cs', proposer, h, rfl⟩
      cases h
      exact ⟨not_lt.1 hneg, rfl⟩
    · rintro ⟨-, rfl⟩
      exact ⟨_, _, rfl, rfl⟩

theorem tmod_wrapInt_of_le {x n : ℤ} (h0 : 0 ≤ x) (hx : x ≤ maxInt) :
    (wrapInt x).tmod n = x % n := by
  rw [wrapInt_of_isInt ⟨by unfold minInt; omega, hx⟩, Int.tmod_eq_emod_of_nonneg h0]

/-- The remainder of a sum that overflows is `0` or negative. -/
theorem tmod_wrapInt_of_gt {x n : ℤ} (hx : maxInt < x) (hx' : x ≤ 2 ^ 64) :
    (wrapInt x).tmod n = -((2 ^ 64 - x) % n) := by
  rw [wrapInt_of_overflow hx (by unfold maxInt; omega), ← neg_sub, Int.neg_tmod,
    Int.tmod_eq_emod_of_nonneg (by omega)]

/-- **A round has a proposer exactly if the sum does not overflow, or overflows to a multiple of
the number of validators.** -/
theorem exists_proposes_iff (h0 : 0 ≤ cs.vrfValIndex) (hlt : cs.vrfValIndex < cs.validators.size)
    (hsize : cs.validators.size ≤ maxInt) {round : ℤ} (hround : 0 < round) (hint : round ≤ maxInt) :
    (∃ idx : ℤ, 0 ≤ idx ∧ idx < cs.validators.size ∧ Proposes env now cs round idx) ↔
      cs.vrfValIndex + round ≤ maxInt ∨
        (cs.validators.size : ℤ) ∣ 2 ^ 64 - (cs.vrfValIndex + round) := by
  have hn : (0 : ℤ) < cs.validators.size := by omega
  by_cases hx : cs.vrfValIndex + round ≤ maxInt
  · have hnonneg := Int.emod_nonneg (cs.vrfValIndex + round) hn.ne'
    refine iff_of_true ⟨_, hnonneg, Int.emod_lt_of_pos _ hn,
      (proposes_iff h0 hlt hround.ne' _).2 ⟨hnonneg, ?_⟩⟩ (.inl hx)
    exact tmod_wrapInt_of_le (by omega) hx
  · have hrem := @tmod_wrapInt_of_gt _ cs.validators.size (not_le.1 hx)
      (by unfold maxInt at *; omega)
    have hnonneg := Int.emod_nonneg (2 ^ 64 - (cs.vrfValIndex + round)) hn.ne'
    simp only [hx, false_or]
    rw [Int.dvd_iff_emod_eq_zero]
    constructor
    · rintro ⟨idx, hidx, -, hproposes⟩
      have := ((proposes_iff h0 hlt hround.ne' idx).1 hproposes).2
      rw [hrem] at this
      omega
    · intro hzero
      refine ⟨0, le_rfl, hn, (proposes_iff h0 hlt hround.ne' 0).2 ⟨le_rfl, ?_⟩⟩
      rw [hrem, hzero, neg_zero]

/-- The number in a window that has a residue. -/
theorem existsUnique_emod {n : ℤ} (first : ℤ) {idx : ℤ} (h0 : 0 ≤ idx) (hlt : idx < n) :
    ∃! x, first ≤ x ∧ x < first + n ∧ x % n = idx := by
  have hn : 0 < n := by omega
  have hrem := Int.emod_nonneg (idx - first) hn.ne'
  have hrem' := Int.emod_lt_of_pos (idx - first) hn
  have hat : (first + (idx - first) % n) % n = idx := by
    rw [Int.add_emod, Int.emod_emod_of_dvd _ dvd_rfl, ← Int.add_emod, add_sub_cancel,
      Int.emod_eq_of_lt h0 hlt]
  refine ⟨first + (idx - first) % n, ⟨by omega, by omega, hat⟩, ?_⟩
  rintro y ⟨hy, hy', hyrem⟩
  have hdvd : n ∣ y - (first + (idx - first) % n) :=
    Int.dvd_of_emod_eq_zero (Int.emod_eq_emod_iff_emod_sub_eq_zero.1 (hyrem.trans hat.symm))
  have := Int.eq_zero_of_abs_lt_dvd hdvd (abs_lt.2 ⟨by omega, by omega⟩)
  omega

/-- **The validators are visited exactly if no sum overflows**, or only the last one does and the
number of validators divides it. -/
theorem visitsAll_iff (h0 : 0 ≤ cs.vrfValIndex) (hlt : cs.vrfValIndex < cs.validators.size)
    {first : ℤ} (hfirst : 1 ≤ first) (hint : first + cs.validators.size - 1 ≤ maxInt) :
    VisitsAll env now cs first ↔
      cs.vrfValIndex + first + cs.validators.size - 1 ≤ maxInt ∨
        cs.vrfValIndex + first + cs.validators.size - 1 = 2 ^ 63 ∧
          (cs.validators.size : ℤ) ∣ 2 ^ 63 := by
  have hn : (0 : ℤ) < cs.validators.size := by omega
  constructor
  · rintro ⟨hround, -⟩
    by_contra hover
    rw [not_or, not_le] at hover
    -- the round whose sum is the first to overflow, and the one after it
    have hat : ∀ x : ℤ, 2 ^ 63 ≤ x → x < cs.vrfValIndex + first + cs.validators.size →
        (cs.validators.size : ℤ) ∣ 2 ^ 64 - x := fun x hx hx' => by
      have hexists := (exists_proposes_iff h0 hlt (by unfold maxInt at *; omega)
        (show 0 < x - cs.vrfValIndex by unfold maxInt at *; omega)
        (by unfold maxInt at *; omega)).1
        (hround (x - cs.vrfValIndex) (by unfold maxInt at *; omega) (by omega))
      rw [add_sub_cancel] at hexists
      exact hexists.resolve_left (by unfold maxInt; omega)
    have hdvd := hat (2 ^ 63) le_rfl (by unfold maxInt at *; omega)
    have hlast : 2 ^ 63 < cs.vrfValIndex + first + cs.validators.size - 1 :=
      lt_of_le_of_ne (by unfold maxInt at *; omega) fun heq =>
        hover.2 ⟨heq.symm, by norm_num at hdvd ⊢; exact hdvd⟩
    have hone := Int.dvd_sub hdvd (hat (2 ^ 63 + 1) (by omega) (by omega))
    have := Int.le_of_dvd (by norm_num) hone
    norm_num at this
    unfold maxInt at *
    omega
  · intro hok
    have hidx : ∀ round : ℤ, first ≤ round → round < first + cs.validators.size →
        (wrapInt (cs.vrfValIndex + round)).tmod cs.validators.size =
          (cs.vrfValIndex + round) % cs.validators.size := fun round hle hlt' => by
      by_cases hx : cs.vrfValIndex + round ≤ maxInt
      · exact tmod_wrapInt_of_le (by omega) hx
      · obtain ⟨hend, hdvd⟩ := hok.resolve_left (by omega)
        have hx' : cs.vrfValIndex + round = 2 ^ 63 := by unfold maxInt at hx; omega
        have hhalf : (2 ^ 64 - 2 ^ 63 : ℤ) = 2 ^ 63 := by norm_num
        rw [tmod_wrapInt_of_gt (by omega) (by omega), hx', hhalf, Int.emod_eq_zero_of_dvd hdvd,
          neg_zero]
    have hproposes : ∀ round idx : ℤ, first ≤ round → round < first + cs.validators.size →
        (Proposes env now cs round idx ↔
          0 ≤ idx ∧ (cs.vrfValIndex + round) % cs.validators.size = idx) :=
      fun round idx hle hlt' => by
        rw [proposes_iff h0 hlt (by omega), hidx round hle hlt']
    refine ⟨fun round hle hlt' => ?_, fun idx hidx0 hidxlt => ?_⟩
    · have hrem := Int.emod_nonneg (cs.vrfValIndex + round) hn.ne'
      exact ⟨_, hrem, Int.emod_lt_of_pos _ hn, (hproposes round _ hle hlt').2 ⟨hrem, rfl⟩⟩
    · obtain ⟨x, ⟨hx, hx', hrem⟩, huniq⟩ :=
        existsUnique_emod (cs.vrfValIndex + first) hidx0 hidxlt
      refine ⟨x - cs.vrfValIndex, ⟨by omega, by omega, ?_⟩, ?_⟩
      · refine (hproposes _ _ (by omega) (by omega)).2 ⟨hidx0, ?_⟩
        rw [add_sub_cancel, hrem]
      · rintro round ⟨hle, hlt', hround⟩
        have := huniq (cs.vrfValIndex + round) ⟨by omega, by omega,
          ((hproposes _ _ hle hlt').1 hround).2⟩
        omega

/-- **The stake-weighted proposer.**  For every list of validators with non-negative powers and a
positive sum: the validator in whose share the residue of the hash lies is drawn; each validator
owns as many residues as it has power; round `0` has a proposer; and a later round has one, or the
validators are visited from a round on, exactly if the sums do not overflow in a way that the
remainder shows. -/
theorem proposer_stakeWeighted_iff (env : Env) (now : ℤ) (cs : ConsensusState)
    (hpos : ∀ v ∈ cs.validators.validators, 0 ≤ v.votingPower)
    (htotal : 0 < (cs.validators.validators.map Validator.votingPower).sum)
    (hsize : cs.validators.size ≤ maxInt) :
    (∀ headerHash, ∃ i : ℕ,
      proposerByVRF env.libs headerHash cs.validators.validators = .ok (i : ℤ) ∧
      ∀ j, (j < cs.validators.validators.length ∧
        powerBefore cs.validators.validators j ≤ hashValue env.libs headerHash %
          (cs.validators.validators.map Validator.votingPower).sum ∧
        hashValue env.libs headerHash % (cs.validators.validators.map Validator.votingPower).sum <
          powerBefore cs.validators.validators (j + 1)) ↔ j = i) ∧
    (∀ (i : ℕ) val, cs.validators.validators[i]? = some val →
      ({n : ℤ | 0 ≤ n ∧ n < (cs.validators.validators.map Validator.votingPower).sum ∧
        vrfIndex n cs.validators.validators 0 = i}.ncard : ℤ) = val.votingPower) ∧
    (cs.vrfValIndex < 0 → KnowsHeaders env now → ∃ (idx : ℤ) (val : Validator), 0 ≤ idx ∧
      idx < cs.validators.size ∧ proposerByRound env now cs 0 =
        .ok ({ cs with vrfValIndex := idx }, ⟨cs.height, 0, idx, val⟩)) ∧
    (0 ≤ cs.vrfValIndex → cs.vrfValIndex < cs.validators.size →
      (∀ round, 0 < round → round ≤ maxInt →
        ((∃ idx : ℤ, 0 ≤ idx ∧ idx < cs.validators.size ∧ Proposes env now cs round idx) ↔
          cs.vrfValIndex + round ≤ maxInt ∨
            (cs.validators.size : ℤ) ∣ 2 ^ 64 - (cs.vrfValIndex + round))) ∧
      ∀ first, 1 ≤ first → first + cs.validators.size - 1 ≤ maxInt →
        (VisitsAll env now cs first ↔
          cs.vrfValIndex + first + cs.validators.size - 1 ≤ maxInt ∨
            cs.vrfValIndex + first + cs.validators.size - 1 = 2 ^ 63 ∧
              (cs.validators.size : ℤ) ∣ 2 ^ 63)) :=
  ⟨fun headerHash => proposerByVRF_spec hpos htotal env.libs headerHash,
    fun _ _ hval => ncard_residues hpos hval,
    fun hnew hheaders => proposerByRound_draws hpos htotal hheaders hnew,
    fun h0 hlt => ⟨fun _ hround hint => exists_proposes_iff h0 hlt hsize hround hint,
      fun _ hfirst hint => visitsAll_iff h0 hlt hfirst hint⟩⟩

end Rounds

/-- A validator of the plain network that has drawn the second one. -/
def drewSecond : Go ConsensusState := do
  let cs ← startNewHeight PlainEnv.env PlainEnv.lastExtra PlainEnv.validators none none
  .ok { cs with vrfValIndex := 1 }

/-- Rounds `1` to `3` visit the three validators. -/
theorem proposer_stakeWeighted_iff_plainEnv :
    ∃ cs, drewSecond = .ok cs ∧ VisitsAll PlainEnv.env 0 cs 1 := by
  obtain ⟨cs, hcs, hidx, hvals⟩ : ∃ cs, drewSecond = .ok cs ∧ cs.vrfValIndex = 1 ∧
      cs.validators.validators = PlainEnv.validators.validators := by
    decide +kernel
  have hsize : cs.validators.size = 3 := congrArg List.length hvals
  refine ⟨cs, hcs, (((proposer_stakeWeighted_iff PlainEnv.env 0 cs (by rw [hvals]; decide)
    (by rw [hvals]; decide) (by rw [hsize]; decide)).2.2.2 (by omega) (by omega)).2 1 le_rfl
      (by rw [hsize]; decide)).2 (.inl ?_)⟩
  rw [hsize, hidx]
  decide

/-- **A round without a proposer.**  With the second validator drawn, the last round of `int` makes
`proposerByRound` panic. -/
theorem proposerByRound_overflows :
    Steps.failsWith (drewSecond >>= fun cs => proposerByRound PlainEnv.env 0 cs maxInt)
      (.sanity "The index of proposer out of range") = true := by
  decide +kernel

end Consensus

end LigoChain
