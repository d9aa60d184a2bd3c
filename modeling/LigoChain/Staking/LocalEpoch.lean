/-
# The epoch of a node, block by block

What the insertion of a block does to the epoch a node is in: the two insert callbacks
`updateLocalEpoch` and `autoStartMining` (`state/execution.go`), the votes for the next
epoch (`UpdateNextEpoch` in `ligochain/cross_chain.go`) and the switch (`Finalize` in
`engine.go`, `SwitchEpochOp` in `core/pending_ops.go`).  With them stand the two places of
`consensus/state.go` that look at the next epoch before: `createProposalBlock` and
`defaultDoPrevote`.

A next epoch may be proposed at every height of an epoch but the first and the last, and a
block that carries none is accepted as well.  It is recorded at the second height only, or
at height `2`.  So the next epoch is known at the end of an epoch if and only if the block
at that height carried it: `knowsNextEpoch_iff`.
-/

import LigoChain.Staking.Switch

namespace LigoChain
namespace Staking

open State

/-- `UpdateNextEpochOp`. -/
structure UpdateNextEpochOp where
  from_ : Address
  pubKey : PubKey
  amount : ℤ
  salt : String
  txHash : Bytes
  deriving DecidableEq, Repr

/-- A block: its number and time, the epoch in its extra data, the votes of its transactions,
and the state that `Finalize` is given. -/
structure Block where
  number : ℕ
  time : ℤ
  epochBytes : Bytes
  votes : List UpdateNextEpochOp
  state : StateDB

namespace EpochValidatorVoteSet

/-- The vote of an operation replaces the amount of the vote of its address, or is added. -/
def recordVotes (op : UpdateNextEpochOp) (votes : List EpochValidatorVote) :
    List EpochValidatorVote :=
  if votes.any fun v => v.address == op.from_ then
    votes.map fun v =>
      if v.address = op.from_ then { v with amount := some op.amount, txHash := op.txHash } else v
  else votes ++ [⟨op.from_, some op.pubKey, some op.amount, "ligochain", op.txHash⟩]

theorem nodup_recordVotes {votes : List EpochValidatorVote} (op : UpdateNextEpochOp)
    (h : (votes.map EpochValidatorVote.address).Nodup) :
    ((recordVotes op votes).map EpochValidatorVote.address).Nodup := by
  unfold recordVotes
  split_ifs with hany
  · rw [List.map_map, List.map_congr_left]
    · exact h
    · intro v _
      simp only [Function.comp]
      split_ifs <;> rfl
  · rw [List.map_append]
    refine List.Nodup.append h (List.nodup_singleton _) ?_
    simpa [List.disjoint_singleton] using hany

/-- The vote of an operation is recorded. -/
def record (voteSet : EpochValidatorVoteSet) (op : UpdateNextEpochOp) : EpochValidatorVoteSet :=
  ⟨recordVotes op voteSet.votes, nodup_recordVotes op voteSet.nodup⟩

end EpochValidatorVoteSet

namespace Epoch

variable (L : EpochLibs) (ep : Epoch)

/-- `UpdateNextEpoch`.  A set that was not in memory and not in the database is saved, but not
kept in memory. -/
def updateNextEpoch (op : UpdateNextEpochOp) : Go Epoch :=
  match ep.getNextEpoch.nextEpoch with
  | none => .error .nilDeref
  | some next =>
    let loaded := next.validatorVoteSet.or (ep.db.loadEpochVoteSet next.number)
    let voteSet := (loaded.getD .new).record op
    .ok { ep with
      nextEpoch := some { next with validatorVoteSet := loaded.map fun _ => voteSet }
      db := ep.db.saveEpochVoteSet next.number voteSet }

/-- `updateLocalEpoch`. -/
def updateLocalEpoch (b : Block) : Go Epoch :=
  match L.fromBytes b.epochBytes with
  | none => .ok ep
  | some epochInBlock =>
    if b.number = 0 then .ok ep
    else if epochInBlock.number = ep.number + 1 then
      if b.number = ep.startBlock + 1 ∨ b.number = 2 then
        .ok (ep.setNextEpoch (some ⟨{ epochInBlock with status := .votedNotSaved }, none⟩)).save
      else if b.number = ep.endBlock then
        match ep.getNextEpoch.nextEpoch with
        | none => .error .nilDeref
        | some nextEp =>
          .ok (ep.setNextEpoch (some { nextEp with
            validators := epochInBlock.validators
            status := .votedNotSaved })).save
      else .ok ep.save
    else if epochInBlock.number = ep.number then
      let ep := save { ep with startTime := epochInBlock.startTime }
      if 0 < ep.number then
        match ep.previousEpoch with
        | none => .error .nilDeref
        | some prev =>
          .ok { ep with
            previousEpoch := some { prev with endTime := epochInBlock.startTime }
            db := ep.db.updateEpochEndTime (ep.number - 1) epochInBlock.startTime }
      else .ok ep
    else .ok ep

/-- The power of a validator in `DryRunUpdateEpochValidatorSet`. -/
def netStake (s : StateDB) (addr : Address) : ℤ :=
  s.getAmount .proxiedBalance addr + s.getAmount .depositProxiedBalance addr -
    s.getAmount .pendingRefundBalance addr + s.getAmount .depositBalance addr

/-- `DryRunUpdateEpochValidatorSet`: the validators it leaves. -/
def dryRunUpdateEpochValidatorSet (s : StateDB) (validators : ValidatorSet)
    (voteSet : Option EpochValidatorVoteSet) : ValidatorSet :=
  let validators := refreshPowers (netStake s) validators 0 validators.size
  (updateEpochValidatorSet L validators (voteSet.getD .new)).1

/-- `autoStartMining`. -/
def autoStartMining (b : Block) : Go Epoch :=
  if b.number + 1 = ep.endBlock then
    match ep.getNextEpoch.nextEpoch with
    | none => .error .nilDeref
    | some nextEp =>
      let voteSet := nextEp.validatorVoteSet.or (ep.db.loadEpochVoteSet nextEp.number)
      .ok { ep with nextEpoch := some { nextEp with
        validators := dryRunUpdateEpochValidatorSet L b.state ep.validators voteSet
        validatorVoteSet := voteSet } }
  else .ok ep

/-- The insert callbacks, which are walked as a map is: in either order. -/
def insertCallbacks (updateFirst : Bool) (b : Block) : Go Epoch :=
  if updateFirst then do
    let ep ← ep.updateLocalEpoch L b
    ep.autoStartMining L b
  else do
    let ep ← ep.autoStartMining L b
    ep.updateLocalEpoch L b

/-- `ShouldEnterNewEpoch`: the epoch, with the next one loaded, the new validators if the
epoch is to be switched, and the state after it. -/
def shouldEnterNewEpoch (order : FinSet Address → List Address) (height : ℕ) (s : StateDB) :
    Go (Epoch × Option ValidatorSet × StateDB) :=
  if height = ep.endBlock then
    match ep.getNextEpoch.nextEpoch with
    | none => .ok (ep, none, s)
    | some next =>
      (@enterProgram Empty L order ep.validators (next.validatorVoteSet.getD .new)).run
        Op.run s >>= fun r => .ok (ep.getNextEpoch, r.1.toOption, r.2)
  else .ok (ep, none, s)

/-- How a block is inserted: when, in which order the callbacks are called and the refunds are
walked. -/
structure Insertion where
  now : ℤ
  updateFirst : Bool
  order : FinSet Address → List Address

/-- The insertion of a block of the epoch: `Finalize` when the block is processed, the
callbacks when it is written, then its operations. -/
def insertBlock (how : Insertion) (b : Block) : Go Epoch := do
  let (ep, newValidators, _) ← ep.shouldEnterNewEpoch L how.order b.number b.state
  let ep ← ep.insertCallbacks L how.updateFirst b
  let ep ← b.votes.foldlM (fun ep op => ep.updateNextEpoch op) ep
  .ok (newValidators.elim ep fun vals => (ep.enterNewEpoch how.now vals).getD ep)

/-- `createProposalBlock`: the epoch that a proposal at a height carries. -/
def proposalEpochBytes (height lastHeight : ℕ) (lastBlockTime : ℤ) : Go Bytes :=
  if height = ep.endBlock then
    match ep.getNextEpoch.nextEpoch with
    | none => .error (.sanity "missing next epoch at epoch end block")
    | some nextEp => .ok (L.bytes nextEp.toEpochData)
  else if height = ep.startBlock ∨ height = 1 then .ok (L.bytes ep.toEpochData)
  else if ep.shouldProposeNextEpoch height then
    (ep.proposeNextEpoch L lastHeight lastBlockTime).map L.bytes
  else .ok []

/-- The check of `defaultDoPrevote` on the epoch in a proposal's extra data. -/
def acceptsEpochBytes (height : ℕ) (epochBytes : Bytes) (lastHeight : ℕ) (lastBlockTime : ℤ) :
    Go Bool :=
  match L.fromBytes epochBytes with
  | none => .ok true
  | some proposed =>
    if proposed.number = ep.number + 1 ∧ ep.shouldProposeNextEpoch height = true then
      ep.validateNextEpoch L proposed lastHeight lastBlockTime
    else .ok true

end Epoch

end Staking
end LigoChain
