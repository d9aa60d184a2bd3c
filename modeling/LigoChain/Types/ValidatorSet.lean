/-
# Validator sets

`ValidatorSet` in `chain/consensus/tendermint/types/validator_set.go`: lookup by
address and index, the edits an epoch makes, the tally of a bit array, and the
check of a commit, `VerifyCommit`.  `blsVerifySignAggr`
(`consensus/state.go`) reads nothing of the consensus state but its validators,
so it stands here beside `VerifyCommit`: the two check the same kind of evidence,
an aggregate signature with the bit array of its signers.

`verifyCommit_eq_ok` and `blsVerifySignAggr_eq_true` say what a passed check has
checked; both end in `Quorum`, the tally reaching the threshold of the round.
-/

import LigoChain.Types.Basic
import LigoChain.Types.Threshold
import Mathlib.Algebra.BigOperators.Group.List.Basic

namespace LigoChain

open GoInt

/-- `ValidatorSet`, without the cached power that nothing reads. -/
structure ValidatorSet where
  validators : List Validator
  deriving DecidableEq, Repr

/-- The errors of `TalliedVotingPower`, `VerifyCommit` and `blsVerifySignAggr`. -/
inductive VerifyError
  | nilBitmap
  | nilValidators
  | sizeNotEqual (validators bitmap : ℕ)
  | nilCommit
  | wrongSetSize (validators commit : ℕ)
  | wrongHeight (height commit : ℕ)
  | wrongSignature
  | insufficientVotingPower (got needed : ℤ)
  | nilSignAggr
  | nilBLSSignature
  | cannotAggregatePubkeys
  | invalidAggregateSignature
  deriving DecidableEq, Repr

namespace ValidatorSet

variable (valSet : ValidatorSet)

/-- `Size`. -/
def size : ℕ := valSet.validators.length

/-- `HasAddress`. -/
def hasAddress (address : Bytes) : Bool := valSet.validators.any fun val => val.address == address

/-- `GetByAddress`: the first validator with the address and its index, or `(0, nil)`. -/
def getByAddress (address : Bytes) : ℕ × Option Validator :=
  match valSet.validators.findIdx? fun val => val.address == address with
  | some idx => (idx, valSet.validators[idx]?)
  | none => (0, none)

/-- `GetByIndex`: the slice is indexed without a check. -/
def getByIndex (index : ℤ) : Except GoPanic (Bytes × Validator) :=
  if index < 0 then .error .index
  else match valSet.validators[index.toNat]? with
    | some val => .ok (val.address, val)
    | none => .error .index

/-- `Hash`: `nil` for no validators, else the Merkle root over them. -/
def hash (L : Libs) : Bytes :=
  if valSet.validators.isEmpty then [] else L.hashFromValidators valSet.validators

/-- The power of all validators. -/
def totalPower : ℤ := (valSet.validators.map Validator.votingPower).sum

/-- The power of the validators whose bit is set. -/
def powerOf (bits : BitArray) : ℤ :=
  ((valSet.validators.zip bits).map fun p => if p.2 then p.1.votingPower else 0).sum

/-- One round of the loop in `TalliedVotingPower` over the accumulators
`powerSum`, `votesSum` and `totalVotes`. -/
def tallyStep (acc : ℤ × ℤ × ℤ) (p : Validator × Bool) : ℤ × ℤ × ℤ :=
  if p.2 then (acc.1 + 1, acc.2.1 + p.1.votingPower, acc.2.2 + p.1.votingPower)
  else (acc.1, acc.2.1, acc.2.2 + p.1.votingPower)

/-- `TalliedVotingPower`: the number of bits set, the power behind them, and the
total power.  An empty validator list is read as `nil`. -/
def talliedVotingPower (bitMap : Option BitArray) : Except VerifyError (ℤ × ℤ × ℤ) :=
  match bitMap with
  | none => .error .nilBitmap
  | some bits =>
    if valSet.validators.isEmpty then .error .nilValidators
    else if valSet.size ≠ bits.length then .error (.sizeNotEqual valSet.size bits.length)
    else .ok ((valSet.validators.zip bits).foldl tallyStep (0, 0, 0))

/-- The loop of `TalliedVotingPower` adds to each accumulator the sum of its column. -/
theorem foldl_tallyStep (l : List (Validator × Bool)) (acc : ℤ × ℤ × ℤ) :
    (l.foldl tallyStep acc).2 =
      (acc.2.1 + (l.map fun p => if p.2 then p.1.votingPower else 0).sum,
        acc.2.2 + (l.map fun p => p.1.votingPower).sum) := by
  induction l generalizing acc with
  | nil => simp
  | cons p l ih =>
    rw [List.foldl_cons, ih]
    unfold tallyStep
    split_ifs with hp <;> simp [hp, add_assoc]

/-- **What `TalliedVotingPower` returns:** the power of the bits and the total power. -/
theorem talliedVotingPower_eq_ok {bitMap : Option BitArray} {count votesSum totalVotes : ℤ}
    (h : valSet.talliedVotingPower bitMap = .ok (count, votesSum, totalVotes)) :
    ∃ bits, bitMap = some bits ∧ valSet.size = bits.length ∧
      votesSum = valSet.powerOf bits ∧ totalVotes = valSet.totalPower := by
  cases bitMap with
  | none => simp [talliedVotingPower] at h
  | some bits =>
    simp only [talliedVotingPower] at h
    split_ifs at h with hnil hsize
    have hlen : valSet.size = bits.length := not_not.1 hsize
    have hfst : (valSet.validators.zip bits).map (fun p => p.1.votingPower) =
        valSet.validators.map Validator.votingPower := by
      rw [show (fun p : Validator × Bool => p.1.votingPower) = Validator.votingPower ∘ Prod.fst
        from rfl, ← List.map_map, List.map_fst_zip (le_of_eq hlen)]
    have hfold := foldl_tallyStep (valSet.validators.zip bits) (0, 0, 0)
    rw [Except.ok.inj h, hfst, zero_add, zero_add] at hfold
    exact ⟨bits, rfl, hlen, (Prod.mk.inj hfold).1, (Prod.mk.inj hfold).2⟩

/-- The keys that `AggrPubKey` collects: those of the validators whose bit is set. -/
def pubKeysOf (bits : BitArray) : List PubKey :=
  ((valSet.validators.zip bits).filter Prod.snd).map fun p => p.1.pubKey

/-- `AggrPubKey`. -/
def aggrPubKey (L : Libs) (bitMap : Option BitArray) : Option PubKey :=
  match bitMap with
  | none => none
  | some bits =>
    if bits.length ≠ valSet.size then none
    else L.blsPubKeyAggregate (valSet.pubKeysOf bits)

/-- The size of a `*BitArray`, which is `0` for `nil`. -/
def bitArraySize (bitMap : Option BitArray) : ℕ := (bitMap.map List.length).getD 0

/-- `VerifyCommit`.  The aggregated key is used without a check for `nil`. -/
def verifyCommit (L : Libs) (chainID : String) (height : ℕ) (commit : Option Commit) :
    Except GoPanic (Except VerifyError Unit) :=
  match commit with
  | none => .ok (.error .nilCommit)
  | some commit =>
    if valSet.size ≠ bitArraySize commit.bitArray then
      .ok (.error (.wrongSetSize valSet.size (bitArraySize commit.bitArray)))
    else if height ≠ commit.height then .ok (.error (.wrongHeight height commit.height))
    else
      let vote : CanonicalJSONVote :=
        ⟨commit.blockID, commit.height, toUint64 commit.round, voteTypePrecommit⟩
      match valSet.aggrPubKey L commit.bitArray with
      | none => .error .nilDeref
      | some pubKey =>
        if !L.verifyBytes pubKey (L.signBytes chainID vote) (commit.signAggr.getD []) then
          .ok (.error .wrongSignature)
        else match valSet.talliedVotingPower commit.bitArray with
          | .error err => .ok (.error err)
          | .ok (_, votesSum, totalVotes) =>
            let quorum := loose23MajorThreshold totalVotes commit.round
            if votesSum ≥ quorum then .ok (.ok ())
            else .ok (.error (.insufficientVotingPower votesSum quorum))

/-- `blsVerifySignAggr`. -/
def blsVerifySignAggr (L : Libs) (signAggr : SignAggr) : Except VerifyError Bool :=
  match signAggr.signatureAggr with
  | none => .error .nilBLSSignature
  | some signature =>
    match valSet.talliedVotingPower signAggr.bitArray with
    | .error err => .error err
    | .ok (_, votesSum, totalVotes) =>
      let quorum := loose23MajorThreshold totalVotes signAggr.round
      let maj23 : Bool := votesSum ≥ quorum
      match valSet.aggrPubKey L signAggr.bitArray with
      | none => .error .cannotAggregatePubkeys
      | some aggrPubKey =>
        let vote : CanonicalJSONVote :=
          ⟨signAggr.blockID, signAggr.height, toUint64 signAggr.round, signAggr.type_⟩
        if !L.verifyBytes aggrPubKey (L.signBytes signAggr.chainID vote) signature then
          .error .invalidAggregateSignature
        else .ok maj23

/-- The evidence in an accepted aggregate: the bits name validators whose power
reaches the threshold of the round, and the aggregate of their keys verifies the
signature over the message. -/
structure Quorum (L : Libs) (bits : BitArray) (round : ℤ) (msg : Bytes)
    (signature : Signature) : Prop where
  size_eq : valSet.size = bits.length
  threshold_le : loose23MajorThreshold valSet.totalPower round ≤ valSet.powerOf bits
  verified : ∃ pk, L.blsPubKeyAggregate (valSet.pubKeysOf bits) = some pk ∧
    L.verifyBytes pk msg signature = true

theorem aggrPubKey_eq_some {L : Libs} {bits : BitArray} {pk : PubKey}
    (h : valSet.aggrPubKey L (some bits) = some pk) :
    L.blsPubKeyAggregate (valSet.pubKeysOf bits) = some pk := by
  simp only [aggrPubKey] at h
  split_ifs at h
  exact h

/-- **What a commit that passes `VerifyCommit` carries.** -/
theorem verifyCommit_eq_ok {L : Libs} {chainID : String} {height : ℕ} {commit : Option Commit}
    (h : valSet.verifyCommit L chainID height commit = .ok (.ok ())) :
    ∃ c bits, commit = some c ∧ c.bitArray = some bits ∧ height = c.height ∧
      valSet.Quorum L bits c.round
        (L.signBytes chainID ⟨c.blockID, c.height, toUint64 c.round, voteTypePrecommit⟩)
        (c.signAggr.getD []) := by
  cases commit with
  | none => simp [verifyCommit] at h
  | some c =>
    simp only [verifyCommit] at h
    split_ifs at h with hsize hheight
    · simp at h
    · simp at h
    split at h
    · simp at h
    next pk hpk =>
    split_ifs at h with hver
    · simp at h
    split at h
    · simp at h
    next count votesSum totalVotes htally =>
    obtain ⟨bits, hbits, hlen, rfl, rfl⟩ := valSet.talliedVotingPower_eq_ok htally
    split_ifs at h with hquorum
    · refine ⟨c, bits, rfl, hbits, not_not.1 hheight, hlen, hquorum, pk, ?_, by simpa using hver⟩
      rw [hbits] at hpk
      exact valSet.aggrPubKey_eq_some hpk
    · simp at h

/-- **What an aggregate that passes `blsVerifySignAggr` carries.** -/
theorem blsVerifySignAggr_eq_true {L : Libs} {s : SignAggr}
    (h : valSet.blsVerifySignAggr L s = .ok true) :
    ∃ bits signature, s.bitArray = some bits ∧ s.signatureAggr = some signature ∧
      valSet.Quorum L bits s.round
        (L.signBytes s.chainID ⟨s.blockID, s.height, toUint64 s.round, s.type_⟩) signature := by
  unfold blsVerifySignAggr at h
  split at h
  · simp at h
  next signature hsig =>
  split at h
  · simp at h
  next count votesSum totalVotes htally =>
  obtain ⟨bits, hbits, hlen, rfl, rfl⟩ := valSet.talliedVotingPower_eq_ok htally
  split at h
  · simp at h
  next pk hpk =>
  simp only at h
  split_ifs at h with hver
  rw [hbits] at hpk
  exact ⟨bits, signature, hbits, hsig, hlen, by simpa using Except.ok.inj h, pk,
    valSet.aggrPubKey_eq_some hpk, by simpa using hver⟩

end ValidatorSet

end LigoChain
