/-
# Epochs

`Epoch` in `chain/consensus/tendermint/epoch/epoch.go`, with the votes for the next epoch
(`epoch_vote.go`), the reward scheme (`scheme.go`) and the edits of a validator set
(`types/validator_set.go`).

An epoch knows the epoch before it and, once a block has carried it, the next one.  The
database has the epochs and the votes that were saved.  Times are nanoseconds since 1970.
What the code takes from outside is in `EpochLibs`: the encoding of an epoch, the calendar,
and the order in which `sort.Slice` leaves validators that compare equal.
-/

import LigoChain.Lib.CachedMap
import LigoChain.Types.Block
import LigoChain.Types.ValidatorSet

namespace LigoChain

open GoInt

/-- `Validator.Equals`. -/
def Validator.equals (v other : Validator) : Bool :=
  v.address == other.address && v.pubKey == other.pubKey && v.votingPower == other.votingPower

namespace ValidatorSet

variable (valSet : ValidatorSet)

/-- The validator of an address equals the given one. -/
def hasEqual (v : Validator) : Bool :=
  (valSet.getByAddress v.address).2.any fun val => val.equals v

/-- `ValidatorSet.Equals`. -/
def equals (other : ValidatorSet) : Bool :=
  valSet.validators.length == other.validators.length && other.validators.all valSet.hasEqual

/-- `Add`: at the end, if no validator has the address. -/
def add (val : Validator) : ValidatorSet × Bool :=
  if valSet.hasAddress val.address then (valSet, false) else (⟨valSet.validators ++ [val]⟩, true)

/-- `Update`. -/
def update (val : Validator) : ValidatorSet :=
  match valSet.validators.findIdx? fun v => v.address == val.address with
  | some idx => ⟨valSet.validators.set idx val⟩
  | none => valSet

/-- `Remove`: the first validator with the address. -/
def remove (address : Bytes) : ValidatorSet :=
  ⟨valSet.validators.eraseP fun v => v.address == address⟩

/-- No address occurs twice. -/
def Distinct : Prop := (valSet.validators.map Validator.address).Nodup

end ValidatorSet

namespace Staking

/-- The `EPOCH_…` constants. -/
inductive EpochStatus
  | notExist
  | proposedNotVoted
  | votedNotSaved
  | saved
  deriving DecidableEq, Repr

/-- `EpochValidatorVote`, without the hash of a hidden vote. -/
structure EpochValidatorVote where
  address : Bytes
  pubKey : Option PubKey
  amount : Option ℤ
  salt : String
  txHash : Bytes
  deriving DecidableEq, Repr

/-- `EpochValidatorVoteSet`.  The map by address is the list read by address. -/
structure EpochValidatorVoteSet where
  votes : List EpochValidatorVote
  nodup : (votes.map EpochValidatorVote.address).Nodup
  deriving DecidableEq

/-- `NewEpochValidatorVoteSet`. -/
def EpochValidatorVoteSet.new : EpochValidatorVoteSet := ⟨[], List.nodup_nil⟩

/-- The exported fields of an `Epoch`, which are those that are encoded. -/
structure EpochData where
  number : ℕ
  rewardPerBlock : ℤ
  startBlock : ℕ
  endBlock : ℕ
  startTime : ℤ
  endTime : ℤ
  status : EpochStatus
  validators : ValidatorSet
  deriving DecidableEq, Repr

/-- `RewardScheme`. -/
structure RewardScheme where
  rewardFirstYear : ℤ
  epochNumberPerYear : ℕ
  totalYear : ℕ
  deriving DecidableEq, Repr

/-- The order of `sort.Slice` in `updateEpochValidatorSet`: more remaining epochs first, then
more power. -/
def Validator.before (v v' : Validator) : Bool :=
  if v.remainingEpoch = v'.remainingEpoch then v'.votingPower < v.votingPower
  else v'.remainingEpoch < v.remainingEpoch

/-- What the epoch code takes from outside. -/
structure EpochLibs where
  fromBytes : Bytes → Option EpochData
  bytes : EpochData → Bytes
  addYears : ℤ → ℕ → ℤ
  sortSlice : List Validator → List Validator
  sortSlice_perm : ∀ vals, (sortSlice vals).Perm vals
  sortSlice_sorted : ∀ vals, (sortSlice vals).Pairwise fun v v' => ¬Validator.before v' v

/-- The epochs and votes in the database. -/
structure EpochDB where
  epochs : FinMap ℕ EpochData
  voteSets : FinMap ℕ EpochValidatorVoteSet
  latestEpoch : Option ℕ

namespace EpochDB

variable (db : EpochDB)

/-- `loadOneEpoch`. -/
def loadOneEpoch (number : ℕ) : Option EpochData := db.epochs[number]?

/-- `LoadEpochVoteSet`. -/
def loadEpochVoteSet (number : ℕ) : Option EpochValidatorVoteSet := db.voteSets[number]?

/-- `SaveEpochVoteSet`. -/
def saveEpochVoteSet (number : ℕ) (voteSet : EpochValidatorVoteSet) : EpochDB :=
  { db with voteSets := db.voteSets.insert number voteSet }

/-- `UpdateEpochEndTime`. -/
def updateEpochEndTime (number : ℕ) (endTime : ℤ) : EpochDB :=
  match db.loadOneEpoch number with
  | some ep => { db with epochs := db.epochs.insert number { ep with endTime := endTime } }
  | none => db

theorem loadOneEpoch_updateEpochEndTime (number n : ℕ) (endTime : ℤ) :
    (db.updateEpochEndTime number endTime).loadOneEpoch n =
      if n = number then
        (db.loadOneEpoch number).map fun ep => { ep with endTime := endTime }
      else db.loadOneEpoch n := by
  unfold updateEpochEndTime
  cases hload : db.loadOneEpoch number with
  | none =>
    split_ifs with hn
    · rw [hn]
      exact hload
    · rfl
  | some ep => exact FinMap.getElem?_insert_ite _ _ _ _

end EpochDB

/-- The next epoch of an epoch, with the votes for it that are in memory. -/
structure NextEpoch extends EpochData where
  validatorVoteSet : Option EpochValidatorVoteSet

/-- The next epoch as `Save` leaves it. -/
def NextEpoch.markSaved (next : NextEpoch) : NextEpoch :=
  if next.status = .votedNotSaved then { next with status := .saved } else next

/-- `Epoch`: the epoch a node is in. -/
structure Epoch extends EpochData where
  validatorVoteSet : Option EpochValidatorVoteSet
  rs : RewardScheme
  previousEpoch : Option EpochData
  nextEpoch : Option NextEpoch
  db : EpochDB

/-- `OneEpochDoc`, the first epoch in the genesis document; `NewValidatorSet` has sorted the
validators. -/
structure OneEpochDoc where
  number : ℕ
  rewardPerBlock : ℤ
  startBlock : ℕ
  endBlock : ℕ
  status : EpochStatus
  validators : ValidatorSet

namespace Epoch

variable (ep : Epoch)

/-- `GetNextEpoch`: the next epoch is loaded if it is not in memory. -/
def getNextEpoch : Epoch :=
  let stored := (ep.db.loadOneEpoch (ep.number + 1)).map fun data =>
    ⟨data, ep.db.loadEpochVoteSet (ep.number + 1)⟩
  { ep with nextEpoch := ep.nextEpoch.or stored }

/-- `SetNextEpoch`. -/
def setNextEpoch (next : Option NextEpoch) : Epoch := { ep with nextEpoch := next }

/-- The epochs that are stored after `Save`. -/
def savedEpochs : FinMap ℕ EpochData :=
  let epochs := ep.db.epochs.insert ep.number ep.toEpochData
  match ep.nextEpoch with
  | none => epochs
  | some next =>
    if next.status = .votedNotSaved then epochs.insert next.number next.markSaved.toEpochData
    else epochs

/-- The votes that are stored after `Save`. -/
def savedVoteSets : FinMap ℕ EpochValidatorVoteSet :=
  match ep.nextEpoch with
  | none => ep.db.voteSets
  | some next =>
    next.validatorVoteSet.elim ep.db.voteSets fun voteSet =>
      ep.db.voteSets.insert next.number voteSet

/-- `Save`. -/
def save : Epoch :=
  { ep with
    nextEpoch := ep.nextEpoch.map NextEpoch.markSaved
    db := ⟨ep.savedEpochs, ep.savedVoteSets, some ep.number⟩ }

/-- `MakeOneEpoch` and `Save` in `InitEpoch`, for a database with no epoch. -/
def initEpoch (rs : RewardScheme) (doc : OneEpochDoc) (now : ℤ) : Epoch :=
  save
    { number := doc.number
      rewardPerBlock := doc.rewardPerBlock
      startBlock := doc.startBlock
      endBlock := doc.endBlock
      startTime := now
      endTime := 0
      status := doc.status
      validators := doc.validators
      validatorVoteSet := none
      rs := rs
      previousEpoch := none
      nextEpoch := none
      db := ⟨∅, ∅, none⟩ }

/-- `LoadOneEpoch` in `InitEpoch`, when a node starts again. -/
def loadEpoch (rs : RewardScheme) (db : EpochDB) (number : ℕ) : Option Epoch :=
  (db.loadOneEpoch number).map fun data =>
    { toEpochData := data
      validatorVoteSet := db.loadEpochVoteSet number
      rs := rs
      previousEpoch := if 0 < number then db.loadOneEpoch (number - 1) else none
      nextEpoch := (db.loadOneEpoch (number + 1)).map fun next =>
        ⟨next, db.loadEpochVoteSet (number + 1)⟩
      db := db }

/-- The next epoch as `EnterNewEpoch` enters it. -/
def enter (next : NextEpoch) (now : ℤ) (newValidators : ValidatorSet) : Epoch :=
  let ended := save { ep with endTime := now }
  save
    { toEpochData :=
        { next.markSaved.toEpochData with startTime := now, validators := newValidators }
      validatorVoteSet := next.validatorVoteSet
      rs := ep.rs
      previousEpoch := some ended.toEpochData
      nextEpoch := none
      db := ended.db }

/-- `EnterNewEpoch`: `none` is the error `NextEpochNotExist`. -/
def enterNewEpoch (now : ℤ) (newValidators : ValidatorSet) : Option Epoch :=
  ep.nextEpoch.map fun next => ep.enter next now newValidators

/-! ## The next epoch -/

/-- `ShouldProposeNextEpoch`. -/
def shouldProposeNextEpoch (curBlockHeight : ℕ) : Bool :=
  ep.nextEpoch.isNone && (decide (ep.startBlock < curBlockHeight) && curBlockHeight != 1 &&
    curBlockHeight != ep.endBlock)

/-- `Time.Sub`, which does not overflow. -/
def timeSub (t u : ℤ) : ℤ := max minInt (min maxInt (t - u))

/-- The division of two `int64`. -/
def int64Div (x y : ℤ) : Go ℤ :=
  if y = 0 then .error .divideByZero else .ok (wrapInt (x.tdiv y))

/-- `int64(a - b)` for `uint64` numbers. -/
def blockCount (a b : ℕ) : ℤ := wrapInt (a - b)

/-- `EMERGENCY_BLOCKS_OF_NEXT_EPOCH`. -/
def emergencyBlocksOfNextEpoch : ℕ := 21614

/-- `calculateRewardPerEpochByYear`. -/
def calculateRewardPerEpochByYear (rewardFirstYear year totalYear epochNumberPerYear : ℤ) : ℤ :=
  if totalYear < year then 0 else rewardFirstYear / epochNumberPerYear

/-- `timePerBlockOfEpoch`: from the epoch before, or in the first epoch from its blocks. -/
def timePerBlockOfEpoch (lastBlockHeight : ℕ) (lastBlockTime : ℤ) : Go ℤ := do
  let perBlock ← match ep.previousEpoch with
    | some prev =>
      int64Div (timeSub prev.endTime prev.startTime) (blockCount prev.endBlock prev.startBlock)
    | none =>
      int64Div (timeSub lastBlockTime ep.startTime) (blockCount lastBlockHeight ep.startBlock)
  .ok (if perBlock = 0 then 1000000000 else perBlock)

/-- The number of blocks that a time gives to each of some epochs. -/
def blocksPerEpoch (time : ℤ) (epochs : ℕ) (timePerBlock : ℤ) : Go ℕ := do
  let timePerEpoch ← int64Div time (ofUint64 epochs)
  let blocks ← int64Div timePerEpoch timePerBlock
  .ok (toUint64 blocks)

/-- `estimateForNextEpoch`: the reward per block and the number of blocks. -/
def estimateForNextEpoch (L : EpochLibs) (lastBlockHeight : ℕ) (lastBlockTime : ℤ) : Go (ℤ × ℕ) :=
  match ep.db.loadOneEpoch 0 with
  | none => .error .nilDeref
  | some zeroEpoch =>
    let perYear := ep.rs.epochNumberPerYear
    if perYear = 0 then .error .divideByZero
    else do
      let thisYear := ep.number / perYear
      let timePerBlock ← ep.timePerBlockOfEpoch lastBlockHeight lastBlockTime
      let epochLeftThisYear := perYear - ep.number % perYear - 1
      let nextYearStartTime := L.addYears zeroEpoch.startTime (thisYear + 1)
      let (year, blocks) ←
        if epochLeftThisYear = 0 then do
          let timeLeftNextYear := timeSub (L.addYears nextYearStartTime 1) nextYearStartTime
          let blocks ← blocksPerEpoch timeLeftNextYear perYear timePerBlock
          .ok (thisYear + 1, blocks)
        else do
          let timeLeftThisYear := timeSub nextYearStartTime lastBlockTime
          let blocks ← if 0 < timeLeftThisYear then
              blocksPerEpoch timeLeftThisYear epochLeftThisYear timePerBlock
            else .ok 0
          .ok (thisYear, blocks)
      let blocks := max emergencyBlocksOfNextEpoch blocks
      let rewardPerEpoch := calculateRewardPerEpochByYear ep.rs.rewardFirstYear (ofUint64 year)
        (ofUint64 ep.rs.totalYear) (ofUint64 perYear)
      .ok (rewardPerEpoch / ofUint64 blocks, blocks)

/-- `time.Time{}`, the first of January of the year `1`. -/
def zeroTime : ℤ := -62135596800000000000

/-- `ProposeNextEpoch`. -/
def proposeNextEpoch (L : EpochLibs) (lastBlockHeight : ℕ) (lastBlockTime : ℤ) : Go EpochData := do
  let (rewardPerBlock, blocks) ← ep.estimateForNextEpoch L lastBlockHeight lastBlockTime
  .ok
    { number := ep.number + 1
      rewardPerBlock := rewardPerBlock
      startBlock := (ep.endBlock + 1) % 2 ^ 64
      endBlock := (ep.endBlock + blocks) % 2 ^ 64
      startTime := zeroTime
      endTime := zeroTime
      status := .proposedNotVoted
      validators := ep.validators }

end Epoch

/-- `Epoch.Equals`, as it is called: without the epochs before and after. -/
def EpochData.equals (ep other : EpochData) : Bool :=
  ep.number == other.number && ep.rewardPerBlock == other.rewardPerBlock &&
    ep.startBlock == other.startBlock && ep.endBlock == other.endBlock &&
    ep.validators.equals other.validators

/-- `ValidateNextEpoch`: whether the error is `nil`. -/
def Epoch.validateNextEpoch (ep : Epoch) (L : EpochLibs) (next : EpochData) (lastHeight : ℕ)
    (lastBlockTime : ℤ) : Go Bool := do
  let myNextEpoch ← ep.proposeNextEpoch L lastHeight lastBlockTime
  .ok (myNextEpoch.equals next)

end Staking
end LigoChain
