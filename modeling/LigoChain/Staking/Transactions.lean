/-
# The transactions of the chain contract

The callbacks of `internal/ligoapi/api.go`: `Register`, `UnRegister`, `Delegate`, `UnDelegate`,
`WithdrawReward`, `SetCommission` and `UnBanned` have a validation, which the pool of transactions
makes as well, and an application, which makes the validation again and then changes the state.
`EditValidator` has a validation only, and no other function has a callback.

The decoding of the arguments and the check of a consensus key are parameters (`ContractLibs`).
What the chain has to say is its height and the epoch of its current block (`ChainContext`); an
epoch that is missing is dereferenced in some places and reported as an error in others.
-/

import LigoChain.Staking.LocalEpoch
import LigoChain.Types.FunctionType

namespace LigoChain
namespace Staking

open State

/-- The errors of a transaction. -/
inductive TxError
  /-- "no method with id". -/
  | noMethod
  /-- "transaction not allowed in main chain". -/
  | notAllowedInMainChain
  /-- "transaction not allowed in side chain". -/
  | notAllowedInSideChain
  /-- "nonce too high". -/
  | nonceTooHigh
  /-- "nonce too low". -/
  | nonceTooLow
  /-- "insufficient $LAI for gas". -/
  | insufficientForGas
  /-- "gas limit reached". -/
  | gasLimitReached
  /-- "out of gas". -/
  | outOfGas
  /-- "insufficient $LAI for tx amount". -/
  | insufficientForValue
  /-- The arguments cannot be unpacked. -/
  | unpack
  /-- "candidate number bigger than the maximum number". -/
  | maxCandidate
  /-- "address become candidate already". -/
  | alreadyCandidate
  /-- "security deposit not meet the minimum value". -/
  | minimumRegisterAmount
  /-- The consensus key is not signed by its owner. -/
  | consensusPubKey
  /-- "commission percentage (between 0 and 100) out of range". -/
  | commission
  /-- "Annual/SemiAnnual Supernode can not become candidate". -/
  | cannotCandidate
  /-- "address not candidate". -/
  | notCandidate
  /-- "banned candidate can not unregister". -/
  | bannedUnRegister
  /-- "Annual/SemiAnnual Supernode can not unregister". -/
  | cannotUnRegister
  /-- "epoch is nil, are you running on Tendermint Consensus Engine". -/
  | noEpoch
  /-- "delegation amount can not be negative". -/
  | delegateAmount
  /-- "exceed the delegation address limit". -/
  | exceedDelegationAddressLimit
  /-- "Annual/SemiAnnual Supernode candidate not accept new delegator". -/
  | cannotDelegate
  /-- "can not cancel self delegation". -/
  | cancelSelfDelegate
  /-- "Annual/SemiAnnual Supernode candidate can not unbond". -/
  | cannotUnBond
  /-- "cancel amount greater than your Proxied Balance". -/
  | insufficientProxiedBalance
  /-- "have no reward to withdraw". -/
  | noReward
  /-- "should not unbanned". -/
  | notBanned
  /-- "please unbanned later". -/
  | stillBanned
  /-- "incorrect block height, please retry later". -/
  | incorrectHeight
  /-- "validator voting power can not be negative". -/
  | negativePower
  /-- "wrong format of required field 'pub_key'". -/
  | wrongPubKey
  /-- "you are not a validator or candidate". -/
  | notValidator
  /-- "args length too long". -/
  | argsTooLong
  deriving DecidableEq

/-- What ends a callback before its end: an error, or a panic. -/
inductive Stop
  | error (e : TxError)
  | panic (p : GoPanic)
  deriving DecidableEq

/-- `RegisterArgs`. -/
structure RegisterArgs where
  pubkey : Bytes
  signature : Bytes
  commission : ℕ

/-- The decoding of the arguments, and the check of a consensus key. -/
structure ContractLibs where
  /-- `FunctionTypeFromId`. -/
  functionTypeFromId : Bytes → Option FunctionType
  unpackRegister : Bytes → Option RegisterArgs
  /-- The candidate. -/
  unpackDelegate : Bytes → Option Address
  /-- The candidate and the amount. -/
  unpackUnDelegate : Bytes → Option (Address × ℕ)
  /-- The delegate address. -/
  unpackWithdrawReward : Bytes → Option Address
  /-- The commission. -/
  unpackSetCommission : Bytes → Option ℕ
  /-- The details, the identity, the moniker and the website. -/
  unpackEditValidator : Bytes → Option (List Bytes)
  /-- `CheckConsensusPubKey`. -/
  checkConsensusPubKey : Address → Bytes → Bytes → Bool

/-- What the callbacks ask the chain for. -/
structure ChainContext where
  /-- `GetEpochByBlockNumber` of the current block. -/
  epoch : Option Epoch
  currHeight : ℕ

/-- A transaction, with the sender that was recovered from its signature. -/
structure ContractTx where
  sender : Address
  data : Bytes
  value : ℤ
  nonce : ℕ
  gas : ℕ
  gasPrice : ℕ
  hash : Bytes

/-- `minimumRegisterAmount`. -/
def minimumRegisterAmount : ℕ := 77000000000000000000000

/-- `maxCandidateNumber`. -/
def maxCandidateNumber : ℕ := 1000

/-- `maxDelegationAddresses`. -/
def maxDelegationAddresses : ℕ := 1000

/-- `updateValidatorThreshold`. -/
def updateValidatorThreshold : ℕ := 1000

/-- The arguments of a transaction, after the four bytes of the function. -/
def ContractTx.input (tx : ContractTx) : Bytes := tx.data.drop 4

/-- A callback. -/
abbrev Callback (α : Type) := Prog Op Stop α

namespace Callback

/-- The callback returns an error. -/
def error {α : Type} (e : TxError) : Callback α := .throw (.error e)

/-- The callback returns an error if a check fails. -/
def require (check : Bool) (e : TxError) : Callback Unit := if check then pure () else error e

/-- The arguments are unpacked, or the callback returns an error. -/
def unpacked {α : Type} : Option α → Callback α
  | some args => pure args
  | none => error .unpack

end Callback

section Callbacks

open Callback

variable (A : ContractLibs) (bc : ChainContext) (tx : ContractTx)

/-- The validator of an address has epochs to remain.  The epoch is not checked for nil. -/
def isSupernode (addr : Address) : Callback Bool :=
  match bc.epoch with
  | none => .throw (.panic .nilDeref)
  | some ep => pure (match (ep.validators.getByAddress addr).2 with
    | some supernode => decide (0 < supernode.remainingEpoch)
    | none => false)

/-- `getEpoch`. -/
def getEpoch : Callback Epoch :=
  match bc.epoch with
  | none => error .noEpoch
  | some ep => pure ep

/-- `updateValidation`. -/
def updateValidation : Callback Unit := do
  let ep ← getEpoch bc
  if bc.currHeight = 1 ∨ bc.currHeight = ep.startBlock ∨ bc.currHeight = ep.startBlock + 1 ∨
      bc.currHeight = ep.endBlock then
    error .incorrectHeight

/-- `GetEpochValidatorVoteSet`. -/
def getEpochValidatorVoteSet (ep : Epoch) : Option EpochValidatorVoteSet :=
  ep.validatorVoteSet.or (ep.db.loadEpochVoteSet ep.number)

/-- One of the votes is for less.  A vote without an amount is dereferenced. -/
def anyVoteBelow (netProxied : ℤ) : List EpochValidatorVote → Callback Bool
  | [] => pure false
  | vote :: votes =>
    match vote.amount with
    | none => .throw (.panic .nilDeref)
    | some amount => if amount < netProxied then pure true else anyVoteBelow netProxied votes

/-- A candidate with this net delegation is to be voted for. -/
def needsUpdate (ep : Epoch) (netProxied : ℤ) : Callback Bool :=
  match getEpochValidatorVoteSet ep with
  | none => pure true
  | some voteSet =>
    if updateValidatorThreshold ≤ voteSet.votes.length then anyVoteBelow netProxied voteSet.votes
    else pure true

/-- What is delegated to a candidate that is voted for becomes its deposit. -/
def depositAllProxied (candidate : Address) : Callback Unit :=
  forEachProxied candidate (fun _ key value => do
    call (.subByUser .proxied candidate key value.proxiedBalance)
    call (.addByUser .depositProxied candidate key value.proxiedBalance)) ()

/-- `updateNextEpochValidatorVoteSet`: the operation that is appended to the pending ones. -/
def updateNextEpochValidatorVoteSet (candidate : Address) : Callback (List UpdateNextEpochOp) := do
  let ep ← getEpoch bc
  let proxiedBalance ← call (.getAmount .proxiedBalance candidate)
  let depositProxiedBalance ← call (.getAmount .depositProxiedBalance candidate)
  let pendingRefundBalance ← call (.getAmount .pendingRefundBalance candidate)
  let netProxied := proxiedBalance + depositProxiedBalance - pendingRefundBalance
  require (decide (0 ≤ netProxied)) .negativePower
  let update ← needsUpdate ep netProxied
  if update then
    let isCandidate ← call (.isCandidate candidate)
    if isCandidate then
      depositAllProxied candidate
      let pubkey ← call (.getPubkey candidate)
      require (pubkey.length == 128) .wrongPubKey
      pure [⟨candidate, pubkey, netProxied, "ligochain", tx.hash⟩]
    else pure []
  else pure []

/-! ## Registration -/

/-- `registerValidation`. -/
def registerValidation : Callback RegisterArgs := do
  let candidateSet ← call (.getSet .candidate)
  require (decide (candidateSet.size ≤ maxCandidateNumber)) .maxCandidate
  let clean ← call (.isCleanAddress tx.sender)
  require clean .alreadyCandidate
  require (decide (minimumRegisterAmount ≤ tx.value)) .minimumRegisterAmount
  let args ← unpacked (A.unpackRegister tx.input)
  require (A.checkConsensusPubKey tx.sender args.pubkey args.signature) .consensusPubKey
  require (decide (args.commission ≤ 100)) .commission
  let supernode ← isSupernode bc tx.sender
  require (!supernode) .cannotCandidate
  pure args

/-- The 128 bytes of a `BLSPubKey` into which a key is copied. -/
def blsPubKey (pubkey : Bytes) : Bytes := (pubkey ++ List.replicate 128 0).take 128

/-- `registerApplyCb`. -/
def registerApplyCb : Callback (List UpdateNextEpochOp) := do
  let args ← registerValidation A bc tx
  updateValidation bc
  call (.subAmount .balance tx.sender tx.value)
  call (.addAmount .delegateBalance tx.sender tx.value)
  call (.addByUser .proxied tx.sender tx.sender tx.value)
  call (.applyForCandidate tx.sender (blsPubKey args.pubkey) args.commission)
  call (.markSet .candidate tx.sender)
  updateNextEpochValidatorVoteSet bc tx tx.sender

/-- `unRegisterValidation`. -/
def unRegisterValidation : Callback Unit := do
  let candidate ← call (.isCandidate tx.sender)
  require candidate .notCandidate
  let banned ← call (.getBanned tx.sender)
  require (!banned) .bannedUnRegister
  let supernode ← isSupernode bc tx.sender
  require (!supernode) .cannotUnRegister
  let _ ← getEpoch bc
  pure ()

/-- What users have delegated to an account is given back; what is a deposit becomes a pending
refund.  It returns whether all is given back. -/
def refundAll (addr : Address) : Callback Bool :=
  forEachProxied addr (fun allRefund key value => do
    call (.subByUser .proxied addr key value.proxiedBalance)
    call (.subAmount .delegateBalance key value.proxiedBalance)
    call (.addAmount .balance key value.proxiedBalance)
    if 0 < value.depositProxiedBalance then
      call (.addByUser .pendingRefund addr key value.depositProxiedBalance)
      call (.markSet .delegateRefund addr)
      pure false
    else pure allRefund) true

/-- `unRegisterApplyCb`.  The candidate set is loaded before and after, to be printed. -/
def unRegisterApplyCb : Callback (List UpdateNextEpochOp) := do
  unRegisterValidation bc tx
  let allRefund ← refundAll tx.sender
  call (.cancelCandidate tx.sender allRefund)
  let _ ← call (.getSet .candidate)
  call (.clearSetByAddress .candidate tx.sender)
  let _ ← call (.getSet .candidate)
  pure []

/-! ## Delegation -/

/-- `delegateValidation`. -/
def delegateValidation : Callback Address := do
  require (decide (0 ≤ tx.value)) .delegateAmount
  let candidate ← unpacked (A.unpackDelegate tx.input)
  let isCandidate ← call (.isCandidate candidate)
  require isCandidate .notCandidate
  let depositBalance ← call (.getByUser .depositProxied candidate tx.sender)
  if depositBalance = 0 then
    let keys ← call (.proxiedKeys candidate)
    require (decide (keys.length < maxDelegationAddresses)) .exceedDelegationAddressLimit
  let supernode ← isSupernode bc candidate
  require (!(supernode && decide (depositBalance = 0))) .cannotDelegate
  pure candidate

/-- `delegateApplyCb`. -/
def delegateApplyCb : Callback (List UpdateNextEpochOp) := do
  let candidate ← delegateValidation A bc tx
  updateValidation bc
  call (.subAmount .balance tx.sender tx.value)
  call (.addAmount .delegateBalance tx.sender tx.value)
  call (.addByUser .proxied candidate tx.sender tx.value)
  let banned ← call (.getBanned tx.sender)
  if banned then pure [] else updateNextEpochValidatorVoteSet bc tx candidate

/-- `unDelegateValidation`. -/
def unDelegateValidation : Callback (Address × ℕ) := do
  let args ← unpacked (A.unpackUnDelegate tx.input)
  require (decide (tx.sender ≠ args.1)) .cancelSelfDelegate
  let supernode ← isSupernode bc args.1
  require (!supernode) .cannotUnBond
  let proxiedBalance ← call (.getByUser .proxied args.1 tx.sender)
  let depositProxiedBalance ← call (.getByUser .depositProxied args.1 tx.sender)
  let pendingRefundBalance ← call (.getByUser .pendingRefund args.1 tx.sender)
  require (decide ((args.2 : ℤ) ≤ proxiedBalance + (depositProxiedBalance - pendingRefundBalance)))
    .insufficientProxiedBalance
  let _ ← getEpoch bc
  pure args

/-- `unDelegateApplyCb`. -/
def unDelegateApplyCb : Callback (List UpdateNextEpochOp) := do
  let args ← unDelegateValidation A bc tx
  updateValidation bc
  let proxiedBalance ← call (.getByUser .proxied args.1 tx.sender)
  let immediatelyRefund ←
    if (args.2 : ℤ) ≤ proxiedBalance then pure (args.2 : ℤ)
    else do
      call (.addByUser .pendingRefund args.1 tx.sender (args.2 - proxiedBalance))
      call (.markSet .delegateRefund args.1)
      pure proxiedBalance
  call (.subByUser .proxied args.1 tx.sender immediatelyRefund)
  call (.subAmount .delegateBalance tx.sender immediatelyRefund)
  call (.addAmount .balance tx.sender immediatelyRefund)
  pure []

/-! ## Rewards, commission and bans -/

/-- `withDrawRewardValidation`. -/
def withDrawRewardValidation : Callback Address := do
  let delegateAddress ← unpacked (A.unpackWithdrawReward tx.input)
  let reward ← call (.getRewardBalanceByDelegateAddress tx.sender delegateAddress)
  require (decide (1 ≤ reward)) .noReward
  pure delegateAddress

/-- `withdrawRewardApplyCb`. -/
def withdrawRewardApplyCb : Callback (List UpdateNextEpochOp) := do
  let delegateAddress ← withDrawRewardValidation A tx
  let reward ← call (.getRewardBalanceByDelegateAddress tx.sender delegateAddress)
  call (.subRewardBalanceByDelegateAddress tx.sender delegateAddress reward)
  call (.addAmount .balance tx.sender reward)
  pure []

/-- `setCommissionValidation`. -/
def setCommissionValidation : Callback ℕ := do
  let candidate ← call (.isCandidate tx.sender)
  require candidate .notCandidate
  let commission ← unpacked (A.unpackSetCommission tx.input)
  require (decide (commission ≤ 100)) .commission
  pure commission

/-- `setCommisstionApplyCb`. -/
def setCommisstionApplyCb : Callback (List UpdateNextEpochOp) := do
  let commission ← setCommissionValidation A tx
  call (.setCommission tx.sender commission)
  pure []

/-- `unBannedValidation`. -/
def unBannedValidation : Callback Unit := do
  let candidate ← call (.isCandidate tx.sender)
  require candidate .notCandidate
  updateValidation bc
  let banned ← call (.getBanned tx.sender)
  require banned .notBanned
  let bannedEpoch ← call (.getAmount .bannedTime tx.sender)
  require (decide (bannedEpoch ≤ 0)) .stillBanned

/-- `unBannedApplyCb`. -/
def unBannedApplyCb : Callback (List UpdateNextEpochOp) := do
  unBannedValidation bc tx
  call (.setBanned tx.sender false)
  call (.clearSetByAddress .banned tx.sender)
  pure []

end Callbacks

end Staking
end LigoChain
