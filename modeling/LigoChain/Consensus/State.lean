/-
# The state of a validator at one height

`RoundState` and `ConsensusState` in
`chain/consensus/tendermint/consensus/state.go`, with the messages and timeouts
that drive them, and the choice of the proposer (`proposerByRound`,
`proposersByVRF`, `proposerByVRF`, `GetProposer`, `IsProposer`).

`Env` collects what the code asks of the node around it: the chain reader, the
epoch, block validation, encodings.  An answer can change while the height lasts,
so it depends on the time at which the handler runs.

What the code does to the outside is the list `out` of the state, the newest first:
signatures made, messages queued or fired as events, timeouts scheduled, blocks
committed.  The code never reads it.
-/

import LigoChain.Consensus.HeightVotes

namespace LigoChain
namespace Consensus

open GoInt

/-- `RoundStepType`. -/
inductive RoundStepType
  | newHeight
  | newRound
  | waitForMinerBlock
  | propose
  | prevote
  | prevoteWait
  | precommit
  | precommitWait
  | commit
  deriving DecidableEq, Repr

/-- The number of a step; the code compares steps by it. -/
def RoundStepType.val : RoundStepType → ℕ
  | .newHeight => 1
  | .newRound => 2
  | .waitForMinerBlock => 3
  | .propose => 4
  | .prevote => 5
  | .prevoteWait => 6
  | .precommit => 7
  | .precommitWait => 8
  | .commit => 9

/-- `timeoutInfo`, without the duration. -/
structure TimeoutInfo where
  height : ℕ
  round : ℤ
  step : RoundStepType
  deriving DecidableEq, Repr

/-- The consensus messages: `ProposalMessage`, `BlockPartMessage`,
`Maj23SignAggrMessage` and `VoteMessage`.  A decoded message can hold a `nil`. -/
inductive Message
  | proposal (proposal : Option Proposal)
  | blockPart (height : ℕ) (round : ℤ) (part : Option Part)
  | maj23SignAggr (maj23SignAggr : Option SignAggr)
  | vote (vote : Option Vote)
  deriving DecidableEq, Repr

/-- What the code does to the outside. -/
inductive Effect
  /-- `scheduleTimeout`. -/
  | schedule (ti : TimeoutInfo)
  /-- `PrivValidator.SignVote`. -/
  | signVote (vote : Vote)
  /-- `PrivValidator.SignProposal`. -/
  | signProposal (proposal : Proposal)
  /-- `sendInternalMessage`. -/
  | internal (msg : Message)
  /-- `FireEventVote2Proposer`. -/
  | vote2Proposer (vote : Vote) (proposerPeerKey : String)
  /-- `FireEventSignAggr`, which the reactor sends to the peers. -/
  | signAggr (signAggr : SignAggr)
  /-- A message that the reactor's gossip routines send to a peer. -/
  | gossip (msg : Message)
  /-- `saveBlockToMainChain`. -/
  | saveBlockToMainChain (height : ℕ)
  /-- `broadcastTX3ProofDataToMainChain`. -/
  | broadcastTX3ProofData (height : ℕ)
  /-- The call of `finalizeCommit`, with the block it is called for. -/
  | finalizeCommit (block : NCBlock)
  /-- `backend.Commit`. -/
  | commit (block : NCBlock)
  deriving DecidableEq, Repr

/-- `VRFProposer`. -/
structure VRFProposer where
  height : ℕ
  round : ℤ
  valIndex : ℤ
  proposer : Validator
  deriving DecidableEq, Repr

/-- What a handler asks of the node around it.  The first argument of the fields that
can change during a height is the time. -/
structure Env where
  libs : Libs
  /-- `chainConfig.LigoChainId`. -/
  ligoChainId : String
  nodeID : String
  epochNumber : ℕ
  epochStartBlock : ℕ
  epochEndBlock : ℕ
  /-- `CurrentHeader()`: its hash and its number. -/
  currentHeader : ℤ → Bytes × ℕ
  /-- The hash of `GetHeaderByNumber(n)`. -/
  headerHashByNumber : ℤ → ℕ → Option Bytes
  /-- `Epoch.Bytes()`. -/
  epochBytes : ℤ → Bytes
  /-- `Epoch.GetNextEpoch().Bytes()`. -/
  nextEpochBytes : ℤ → Option Bytes
  /-- `Epoch.ShouldProposeNextEpoch`. -/
  shouldProposeNextEpoch : ℤ → ℕ → Bool
  /-- `Epoch.ProposeNextEpoch(...).Bytes()` at the current block. -/
  proposeNextEpochBytes : ℤ → Bytes
  /-- The proofs for the withdrawals of a block, `GetTX3ProofData`. -/
  tx3ProofData : ℤ → LigoBlock → Bytes
  /-- `NCBlock.MakePartSet`. -/
  makePartSet : NCBlock → PartSet
  /-- `NCBlock.FromBytes`. -/
  fromBytes : Bytes → Option NCBlock
  /-- `ValidateTX4` returns `nil`. -/
  validateTX4 : ℤ → NCBlock → Bool
  /-- The chain reader's `ValidateBlock` returns no error. -/
  validateBlock : ℤ → LigoBlock → Bool
  /-- The epoch in the block's `EpochBytes` passes the check of `defaultDoPrevote`. -/
  validateEpochBytes : ℤ → Bytes → Bool
  /-- A transaction of the block is a withdrawal from a side chain. -/
  hasWithdrawFromSideChain : LigoBlock → Bool

/-- `pastRoundStates` values: `ROUND_NOT_PROPOSED`. -/
def roundNotProposed : ℤ := 0

/-- `pastRoundStates` values: `ROUND_PROPOSED`. -/
def roundProposed : ℤ := 1

/-- `ConsensusState` with its embedded `RoundState`.  `isProposerFlag` is the cached
field `isProposer`; `ntcExtra` is `state.NTCExtra`, the extra data of the last block. -/
structure ConsensusState where
  height : ℕ
  round : ℤ
  step : RoundStepType
  validators : ValidatorSet
  proposal : Option Proposal
  proposalBlock : Option NCBlock
  proposalBlockParts : Option PartSet
  proposerPeerKey : String
  lockedRound : ℤ
  lockedBlock : Option NCBlock
  lockedBlockParts : Option PartSet
  votes : HeightVoteSet
  voteSignAggr : HeightVoteSignAggr
  commitRound : ℤ
  prevoteMaj23SignAggr : Option SignAggr
  precommitMaj23SignAggr : Option SignAggr
  proposer : Option VRFProposer
  isProposerFlag : Bool
  vrfValIndex : ℤ
  pastRoundStates : GoMap ℤ ℤ
  blockFromMiner : Option LigoBlock
  privValidator : Option PrivValidator
  ntcExtra : TendermintExtra
  out : List Effect

namespace ConsensusState

/-- An effect on the outside. -/
def emit (cs : ConsensusState) (e : Effect) : ConsensusState := { cs with out := e :: cs.out }

/-- `updateRoundStep`. -/
def updateRoundStep (cs : ConsensusState) (round : ℤ) (step : RoundStepType) : ConsensusState :=
  { cs with round := round, step := step }

/-- `scheduleTimeout`. -/
def scheduleTimeout (cs : ConsensusState) (height : ℕ) (round : ℤ) (step : RoundStepType) :
    ConsensusState :=
  cs.emit (.schedule ⟨height, round, step⟩)

/-- `sendInternalMessage`. -/
def sendInternalMessage (cs : ConsensusState) (msg : Message) : ConsensusState :=
  cs.emit (.internal msg)

/-- `isProposalComplete`. -/
def isProposalComplete (cs : ConsensusState) : Bool :=
  cs.proposal.isSome && cs.proposalBlock.isSome

/-- The state after `StartNewHeight`: `Initialize`, `UpdateToState` and `scheduleRound0`.
`blockFromMiner` is kept when it is for this height or a later one. -/
def startNewHeight (env : Env) (ntcExtra : TendermintExtra) (validators : ValidatorSet)
    (privValidator : Option PrivValidator) (blockFromMiner : Option LigoBlock) :
    Go ConsensusState := do
  let height := (ntcExtra.height + 1) % 2 ^ 64
  let votes ← HeightVoteSet.new env.ligoChainId height validators
  .ok
    { height := height
      round := 0
      step := .newHeight
      validators := validators
      proposal := none
      proposalBlock := none
      proposalBlockParts := none
      proposerPeerKey := ""
      lockedRound := -1
      lockedBlock := none
      lockedBlockParts := none
      votes := votes
      voteSignAggr := HeightVoteSignAggr.new env.ligoChainId height validators
      commitRound := -1
      prevoteMaj23SignAggr := none
      precommitMaj23SignAggr := none
      proposer := none
      isProposerFlag := false
      vrfValIndex := -1
      pastRoundStates := ∅
      blockFromMiner := blockFromMiner.filter fun b => height ≤ b.number
      privValidator := privValidator
      ntcExtra := ntcExtra
      out := [.schedule ⟨height, 0, .newHeight⟩] }

/-! ## The proposer of a round -/

/-- The loop of `proposerByVRF`: the validator in whose share of the power `n` lies. -/
def vrfIndex (n : ℤ) : List Validator → ℕ → ℤ
  | [], _ => -1
  | val :: vals, i => if n - val.votingPower < 0 then i else vrfIndex (n - val.votingPower) vals (i + 1)

/-- `proposerByVRF`. -/
def proposerByVRF (L : Libs) (headerHash : Bytes) (validators : List Validator) : Go ℤ :=
  let hash : ℤ := (L.sha256 (List.replicate 8 0 ++ headerHash)).foldl
    (fun n b => n * 256 + b.toNat) 0
  let total := (validators.map Validator.votingPower).sum
  if total = 0 then .error .divideByZero else .ok (vrfIndex (hash % total) validators 0)

/-- `proposersByVRF`: the last proposer and the current one. -/
def proposersByVRF (env : Env) (now : ℤ) (cs : ConsensusState) : Go (ℤ × ℤ) := do
  let (headerHash, headerHeight) := env.currentHeader now
  let curProposer ← proposerByVRF env.libs headerHash cs.validators.validators
  if headerHeight = env.epochStartBlock then .ok (-1, curProposer)
  else if headerHeight > 0 then
    match env.headerHashByNumber now (headerHeight - 1) with
    | none => .error .nilDeref
    | some lastHeaderHash => do
      let lastProposer ← proposerByVRF env.libs lastHeaderHash cs.validators.validators
      .ok (lastProposer, curProposer)
  else .ok (-1, -1)

/-- The bit of the last commit that `proposerByRound` reads: `some false` when there is a
bit array and the validator's bit is not set. -/
def seenCommitBit (cs : ConsensusState) (idx : ℤ) : Option Bool := do
  let commit ← cs.ntcExtra.seenCommit
  let bits ← commit.bitArray
  some (bits.getD (toUint64 idx) false)

/-- The index of the proposer of round `0`, which is drawn once and then kept. -/
def vrfProposerIndex (env : Env) (now : ℤ) (cs : ConsensusState) : Go ℤ :=
  if cs.vrfValIndex ≥ 0 then .ok cs.vrfValIndex
  else do
    let (lastProposer, curProposer) ← proposersByVRF env now cs
    if lastProposer ≥ 0 ∧ curProposer = lastProposer ∧ cs.seenCommitBit curProposer = some false
    then
      if cs.validators.size = 0 then .error .divideByZero
      else .ok ((curProposer + 1).tmod cs.validators.size)
    else .ok curProposer

/-- The index of the proposer of a round.  Drawing the one of round `0` sets `vrfValIndex`. -/
def proposerIndex (env : Env) (now : ℤ) (cs : ConsensusState) (round : ℤ) :
    Go (ConsensusState × ℤ) :=
  if round = 0 then do
    let idx ← vrfProposerIndex env now cs
    .ok ({ cs with vrfValIndex := idx }, idx)
  else if cs.vrfValIndex < 0 then .error (.sanity "cs.vrfValIndex should not be -1")
  else if cs.validators.size = 0 then .error .divideByZero
  else .ok (cs, (wrapInt (cs.vrfValIndex + round)).tmod cs.validators.size)

/-- `proposerByRound`. -/
def proposerByRound (env : Env) (now : ℤ) (cs : ConsensusState) (round : ℤ) :
    Go (ConsensusState × VRFProposer) := do
  let (cs, idx) ← proposerIndex env now cs round
  if idx < 0 then .error (.sanity "The index of proposer out of range")
  else match cs.validators.validators[idx.toNat]? with
    | none => .error (.sanity "The index of proposer out of range")
    | some val => .ok (cs, ⟨cs.height, round, idx, val⟩)

/-- `updateProposer`. -/
def updateProposer (env : Env) (now : ℤ) (cs : ConsensusState) :
    Go (ConsensusState × VRFProposer) := do
  let (cs, proposer) ← proposerByRound env now cs cs.round
  match cs.privValidator with
  | none => .error .nilDeref
  | some pv =>
    .ok ({ cs with
            proposer := some proposer
            isProposerFlag := proposer.proposer.address == pv.address }, proposer)

/-- `GetProposer`: the cached proposer if it is for this height and round. -/
def getProposer (env : Env) (now : ℤ) (cs : ConsensusState) : Go (ConsensusState × Validator) :=
  match cs.proposer with
  | some p =>
    if p.height ≠ cs.height ∨ p.round ≠ cs.round then do
      let (cs, p) ← updateProposer env now cs
      .ok (cs, p.proposer)
    else .ok (cs, p.proposer)
  | none => do
    let (cs, p) ← updateProposer env now cs
    .ok (cs, p.proposer)

/-- `IsProposer`. -/
def isProposer (env : Env) (now : ℤ) (cs : ConsensusState) : Go (ConsensusState × Bool) := do
  let (cs, _) ← getProposer env now cs
  .ok (cs, cs.isProposerFlag)

end ConsensusState

end Consensus
end LigoChain
