/-
# The handlers of the consensus state machine

`enterNewRound` to `finalizeCommit`, `defaultSetProposal`, `addProposalBlockPart`,
`setMaj23SignAggr`, `addVote` and the two entry points `handleMsg` and
`handleTimeout` of `chain/consensus/tendermint/consensus/state.go`.

A handler takes a state and returns one, or panics.  A deferred function runs at
the end of the handler that defers it, and is the tail of its definition here.
Logging, metrics and the events that only tell the reactor about a new step are
left out.
-/

import LigoChain.Consensus.State

namespace LigoChain
namespace Consensus

open GoInt

/-- The chains that do not report to a main chain, `MainnetChainConfig` and
`TestnetChainConfig`. -/
def isMainOrTestnet (chainID : String) : Bool := chainID == "ligochain" || chainID == "testnet"

namespace ConsensusState

variable (env : Env) (now : ℤ)

/-! ## Voting -/

/-- `signVote`: the vote is for the state's own height and round. -/
def signVote (cs : ConsensusState) (pv : PrivValidator) (type_ : ℕ) (hash : Bytes)
    (header : PartSetHeader) : Vote :=
  pv.signVote env.libs cs.ntcExtra.chainID
    { validatorAddress := pv.address
      validatorIndex := (cs.validators.getByAddress pv.address).1
      height := cs.height
      round := toUint64 cs.round
      type_ := type_
      blockID := ⟨hash, header⟩
      signature := []
      signBytes := [] }

/-- `signAddVote`: a validator signs and sends its vote to the proposer. -/
def signAddVote (cs : ConsensusState) (type_ : ℕ) (hash : Bytes) (header : PartSetHeader) :
    Go ConsensusState :=
  match cs.privValidator with
  | none => .ok cs
  | some pv =>
    if !cs.validators.hasAddress pv.address then .ok cs
    else do
      let vote := cs.signVote env pv type_ hash header
      let (cs, isProposer) ← (cs.emit (.signVote vote)).isProposer env now
      if !isProposer then
        if cs.proposerPeerKey ≠ "" then .ok (cs.emit (.vote2Proposer vote cs.proposerPeerKey))
        else .ok cs
      else .ok (cs.sendInternalMessage (.vote (some vote)))

/-- `defaultDoPrevote`. -/
def doPrevote (cs : ConsensusState) : Go ConsensusState :=
  if cs.lockedBlock.isSome then do
    let hash ← NCBlock.hash env.libs cs.lockedBlock
    cs.signAddVote env now voteTypePrevote hash (PartSet.header cs.lockedBlockParts)
  else match cs.proposalBlock with
    | none => cs.signAddVote env now voteTypePrevote [] ⟨0, []⟩
    | some block => do
      let basic ← block.validateBasic cs.ntcExtra
      if !basic then cs.signAddVote env now voteTypePrevote [] ⟨0, []⟩
      else if !env.validateTX4 now block then cs.signAddVote env now voteTypePrevote [] ⟨0, []⟩
      else do
        let (cs, isProposer) ← cs.isProposer env now
        if !isProposer && !env.validateBlock now block.block then
          cs.signAddVote env now voteTypePrevote [] ⟨0, []⟩
        else if !env.validateEpochBytes now ((block.ntcExtra.map (·.epochBytes)).getD []) then
          cs.signAddVote env now voteTypePrevote [] ⟨0, []⟩
        else do
          let hash ← NCBlock.hash env.libs (some block)
          cs.signAddVote env now voteTypePrevote hash (PartSet.header cs.proposalBlockParts)

/-- `enterPrevoteWait`. -/
def enterPrevoteWait (cs : ConsensusState) (height : ℕ) (round : ℤ) : ConsensusState :=
  if cs.height ≠ height ∨ round < cs.round ∨
      (cs.round = round ∧ RoundStepType.prevoteWait.val ≤ cs.step.val) then cs
  else (cs.scheduleTimeout height round .prevoteWait).updateRoundStep round .prevoteWait

/-- The body of `enterPrevote`, before its deferred function. -/
def prevoteIfComplete (cs : ConsensusState) : Go ConsensusState :=
  if cs.isProposalComplete then cs.doPrevote env now else .ok cs

/-- `enterPrevote`. -/
def enterPrevote (cs : ConsensusState) (height : ℕ) (round : ℤ) : Go ConsensusState :=
  if cs.height ≠ height ∨ round < cs.round ∨
      (cs.round = round ∧ RoundStepType.prevoteWait.val < cs.step.val) then .ok cs
  else do
    let cs ← cs.prevoteIfComplete env now
    let cs := if cs.step = .propose then cs.updateRoundStep round .prevote else cs
    .ok (cs.enterPrevoteWait height round)

/-- `enterPrecommitWait`. -/
def enterPrecommitWait (cs : ConsensusState) (height : ℕ) (round : ℤ) : ConsensusState :=
  if cs.height ≠ height ∨ round < cs.round ∨
      (cs.round = round ∧ RoundStepType.precommitWait.val ≤ cs.step.val) then cs
  else (cs.scheduleTimeout height round .precommitWait).updateRoundStep round .precommitWait

/-- `LockedRound`, `LockedBlock` and `LockedBlockParts` reset. -/
def unlock (cs : ConsensusState) : ConsensusState :=
  { cs with lockedRound := -1, lockedBlock := none, lockedBlockParts := none }

/-- The parts are reset to those of a block that is to be fetched, unless they are for that
block already. -/
def fetchBlock (cs : ConsensusState) (header : PartSetHeader) : Go ConsensusState :=
  if PartSet.hasHeader cs.proposalBlockParts header then .ok cs
  else do
    let parts ← newPartSetFromHeader header
    .ok { cs with proposalBlock := none, proposalBlockParts := some parts }

/-- The body of `enterPrecommit`, before its deferred function. -/
def precommit (cs : ConsensusState) (round : ℤ) : Go ConsensusState :=
  match twoThirdsMajority (cs.voteSignAggr.prevotes round) with
  | (_, false) => cs.signAddVote env now voteTypePrecommit [] ⟨0, []⟩
  | (blockID, true) =>
    if cs.voteSignAggr.polInfo.1 < round then .error (.sanity "This POLRound should be")
    else if blockID.hash.isEmpty then
      (if cs.lockedBlock.isNone then cs else cs.unlock).signAddVote env now voteTypePrecommit []
        ⟨0, []⟩
    else do
      if ← NCBlock.hashesTo env.libs cs.lockedBlock blockID.hash then
        signAddVote env now { cs with lockedRound := round } voteTypePrecommit blockID.hash
          blockID.partsHeader
      else if ← NCBlock.hashesTo env.libs cs.proposalBlock blockID.hash then
        match cs.proposalBlock with
        | none => .error .nilDeref
        | some block => do
          let basic ← block.validateBasic cs.ntcExtra
          if !basic then .error (.sanity "enterPrecommit: +2/3 prevoted for an invalid block")
          else
            signAddVote env now
              { cs with
                lockedRound := round
                lockedBlock := some block
                lockedBlockParts := cs.proposalBlockParts }
              voteTypePrecommit blockID.hash blockID.partsHeader
      else do
        let cs ← cs.unlock.fetchBlock blockID.partsHeader
        cs.signAddVote env now voteTypePrecommit [] ⟨0, []⟩

/-- `enterPrecommit`. -/
def enterPrecommit (cs : ConsensusState) (height : ℕ) (round : ℤ) : Go ConsensusState :=
  if cs.height ≠ height ∨ round < cs.round ∨
      (cs.round = round ∧ RoundStepType.precommit.val ≤ cs.step.val) then .ok cs
  else do
    let cs ← cs.precommit env now round
    .ok ((cs.updateRoundStep round .precommit).enterPrecommitWait height round)

/-! ## Committing -/

/-- The block that is handed to the backend: the commit is filled in, and a block of a side
chain is marked for the main chain. -/
def committedBlock (block : NCBlock) (extra : TendermintExtra) (seenCommit : Commit) : NCBlock :=
  let sideChain := !isMainOrTestnet extra.chainID
  { block with
    ntcExtra := some
      { extra with
        seenCommit := some seenCommit
        seenCommitHash := env.libs.hashFromCommit seenCommit
        needToSave := extra.needToSave || (sideChain && !extra.epochBytes.isEmpty)
        needToBroadcast :=
          extra.needToBroadcast || (sideChain && env.hasWithdrawFromSideChain block.block) } }

/-- `finalizeCommit`.  The block is written to in place, so a lock on it sees the change. -/
def finalizeCommit (cs : ConsensusState) (height : ℕ) : Go ConsensusState :=
  if cs.height ≠ height ∨ cs.step ≠ .commit then .ok cs
  else
    match twoThirdsMajority (cs.voteSignAggr.precommits cs.commitRound) with
    | (_, false) =>
      .error (.sanity "Cannot finalizeCommit, commit does not have two thirds majority")
    | (blockID, true) =>
      if !PartSet.hasHeader cs.proposalBlockParts blockID.partsHeader then
        .error (.sanity "Expected ProposalBlockParts header to be commit header")
      else do
        let hashes ← NCBlock.hashesTo env.libs cs.proposalBlock blockID.hash
        if !hashes then
          .error (.sanity "Cannot finalizeCommit, ProposalBlock does not hash to commit hash")
        else match cs.proposalBlock with
          | none => .error .nilDeref
          | some block => do
            let basic ← block.validateBasic cs.ntcExtra
            if !basic then .error (.sanity "+2/3 committed an invalid block")
            else match block.ntcExtra, cs.voteSignAggr.precommits cs.commitRound with
              | some extra, some precommits =>
                if cs.ntcExtra.height < extra.height then
                  let block' := committedBlock env block extra precommits.makeCommit
                  .ok (emit
                    { cs with
                      proposalBlock := some block'
                      lockedBlock :=
                        if cs.lockedBlock = some block then some block' else cs.lockedBlock }
                    (.commit block'))
                else .ok cs
              | _, _ => .error .nilDeref

/-- `tryFinalizeCommit`. -/
def tryFinalizeCommit (cs : ConsensusState) (height : ℕ) : Go ConsensusState :=
  if cs.height ≠ height then .error (.sanity "tryFinalizeCommit() cs.Height")
  else match twoThirdsMajority (cs.voteSignAggr.precommits cs.commitRound) with
    | (_, false) => .ok cs
    | (blockID, true) =>
      if blockID.hash.isEmpty then .ok cs
      else do
        if ← NCBlock.hashesTo env.libs cs.proposalBlock blockID.hash then
          match cs.proposalBlock with
          | none => .error .nilDeref
          | some block => (cs.emit (.finalizeCommit block)).finalizeCommit env height
        else .ok cs

/-- `enterCommit`. -/
def enterCommit (cs : ConsensusState) (height : ℕ) (commitRound : ℤ) : Go ConsensusState :=
  if cs.height ≠ height ∨ RoundStepType.commit.val ≤ cs.step.val then .ok cs
  else match twoThirdsMajority (cs.voteSignAggr.precommits commitRound) with
    | (_, false) => .error (.sanity "RunActionCommit() expects +2/3 precommits")
    | (blockID, true) => do
      let locked ← NCBlock.hashesTo env.libs cs.lockedBlock blockID.hash
      let cs :=
        if locked then
          { cs with proposalBlock := cs.lockedBlock, proposalBlockParts := cs.lockedBlockParts }
        else cs
      let proposed ← NCBlock.hashesTo env.libs cs.proposalBlock blockID.hash
      let cs ← (if proposed then .ok cs else cs.fetchBlock blockID.partsHeader : Go ConsensusState)
      tryFinalizeCommit env { cs with step := .commit, commitRound := commitRound } height

/-! ## Proposing -/

/-- `MakeBlock` with the arguments `createProposalBlock` gives it. -/
def makeBlock (cs : ConsensusState) (ligoBlock : LigoBlock) (epochBytes : Bytes) : NCBlock where
  block := ligoBlock
  ntcExtra := some
    { TendermintExtra.zero with
      chainID := cs.ntcExtra.chainID
      height := cs.height
      time := now
      epochNumber := env.epochNumber
      validatorsHash := cs.validators.hash env.libs
      seenCommit := some ⟨BlockID.zero, 0, 0, none, none⟩
      epochBytes := epochBytes }
  tx3ProofData := env.tx3ProofData now ligoBlock

/-- The epoch bytes that `createProposalBlock` puts into the block. -/
def proposalEpochBytes (cs : ConsensusState) : Go Bytes :=
  if cs.height = env.epochEndBlock then
    match env.nextEpochBytes now with
    | none => .error (.sanity "missing next epoch at epoch end block")
    | some b => .ok b
  else if cs.height = env.epochStartBlock ∨ cs.height = 1 then .ok (env.epochBytes now)
  else if env.shouldProposeNextEpoch now cs.height then .ok (env.proposeNextEpochBytes now)
  else .ok []

/-- `createProposalBlock`. -/
def createProposalBlock (cs : ConsensusState) : Go (Option (NCBlock × PartSet)) :=
  match cs.blockFromMiner with
  | none => .ok none
  | some ligoBlock =>
    if cs.height ≠ ligoBlock.number then .ok none
    else do
      let epochBytes ← cs.proposalEpochBytes env now
      let block := cs.makeBlock env now ligoBlock epochBytes
      .ok (some (block, env.makePartSet block))

/-- The block parts that `defaultDecideProposal` sends to itself. -/
def sendParts (cs : ConsensusState) (parts : List (Option Part)) : ConsensusState :=
  parts.foldl (fun cs part => cs.sendInternalMessage (.blockPart cs.height cs.round part)) cs

/-- `defaultDecideProposal`, once the block is chosen. -/
def proposeBlock (cs : ConsensusState) (height : ℕ) (round : ℤ) (block : NCBlock)
    (blockParts : Option PartSet) : Go ConsensusState := do
  let (polRound, polBlockID) := cs.voteSignAggr.polInfo
  let hash ← NCBlock.hash env.libs (some block)
  if env.nodeID = "" then .error (.sanity "Node id is nil")
  else match cs.privValidator with
    | none => .error .nilDeref
    | some pv =>
      let proposal := pv.signProposal env.libs cs.ntcExtra.chainID
        { height := height
          round := round
          hash := hash
          blockPartsHeader := PartSet.header blockParts
          polRound := polRound
          polBlockID := polBlockID
          proposerPeerKey := env.nodeID
          signature := [] }
      .ok (((cs.emit (.signProposal proposal)).sendInternalMessage
        (.proposal (some proposal))).sendParts ((blockParts.map PartSet.parts).getD []))

/-- `defaultDecideProposal`. -/
def decideProposal (cs : ConsensusState) (height : ℕ) (round : ℤ) : Go ConsensusState :=
  match cs.lockedBlock with
  | some block => cs.proposeBlock env height round block cs.lockedBlockParts
  | none => do
    match ← cs.createProposalBlock env now with
    | none => .ok cs
    | some (block, blockParts) => cs.proposeBlock env height round block (some blockParts)

/-- The reports of a side chain to the main chain at the head of `enterPropose`. -/
def reportToMainChain (cs : ConsensusState) : Go ConsensusState :=
  if isMainOrTestnet cs.ntcExtra.chainID ∨ cs.privValidator.isNone ∨
      (!cs.ntcExtra.needToSave ∧ !cs.ntcExtra.needToBroadcast) then .ok cs
  else do
    let (cs, isProposer) ← cs.isProposer env now
    if !isProposer then .ok cs
    else
      let saved := if cs.ntcExtra.needToSave then
          emit { cs with ntcExtra := { cs.ntcExtra with needToSave := false } }
            (.saveBlockToMainChain cs.ntcExtra.height)
        else cs
      .ok (if saved.ntcExtra.needToBroadcast then
          emit { saved with ntcExtra := { saved.ntcExtra with needToBroadcast := false } }
            (.broadcastTX3ProofData saved.ntcExtra.height)
        else saved)

/-- A validator that is the proposer decides the proposal. -/
def decideIfProposer (cs : ConsensusState) (height : ℕ) (round : ℤ) : Go ConsensusState :=
  if cs.privValidator.isNone then .ok cs
  else do
    let (cs, isProposer) ← cs.isProposer env now
    if !isProposer then .ok cs else cs.decideProposal env now height round

/-- `enterPropose`. -/
def enterPropose (cs : ConsensusState) (height : ℕ) (round : ℤ) : Go ConsensusState :=
  if cs.height ≠ height ∨ round < cs.round ∨
      (cs.round = round ∧ RoundStepType.propose.val ≤ cs.step.val) then .ok cs
  else do
    let cs ← cs.reportToMainChain env now
    let cs := cs.scheduleTimeout height round .propose
    let cs ← cs.decideIfProposer env now height round
    let cs := cs.updateRoundStep round .propose
    if cs.isProposalComplete then cs.enterPrevote env now height cs.round else .ok cs

/-- The end of `enterNewRound` and `enterLowerRound`: a proposer without a block for this
height waits for the miner, everybody else goes on to `enterPropose`. -/
def waitOrPropose (cs : ConsensusState) (height : ℕ) (round : ℤ) : Go ConsensusState := do
  let (cs, isProposer) ← cs.isProposer env now
  if isProposer && (cs.blockFromMiner.map LigoBlock.number != some cs.height) then
    .ok (cs.scheduleTimeout height round .waitForMinerBlock)
  else cs.enterPropose env now height round

/-- The fields of the round that a new round starts without. -/
def clearRound (cs : ConsensusState) : ConsensusState :=
  { cs with
    proposal := none
    proposalBlock := none
    proposalBlockParts := none
    proposerPeerKey := ""
    prevoteMaj23SignAggr := none
    precommitMaj23SignAggr := none }

/-- `enterNewRound`. -/
def enterNewRound (cs : ConsensusState) (height : ℕ) (round : ℤ) : Go ConsensusState :=
  if cs.height ≠ height ∨ round < cs.round ∨ (cs.round = round ∧ cs.step ≠ .newHeight) then .ok cs
  else do
    let cs := cs.updateRoundStep round .newRound
    let cs := if round = 0 then cs else cs.clearRound
    let voteSignAggr ← cs.voteSignAggr.setRound (wrapInt (round + 1))
    let votes ← cs.votes.setRound (wrapInt (round + 1))
    waitOrPropose env now
      { cs with
        voteSignAggr := voteSignAggr
        votes := votes
        pastRoundStates := cs.pastRoundStates.insert round roundNotProposed } height round

/-- `enterLowerRound`. -/
def enterLowerRound (cs : ConsensusState) (height : ℕ) (round : ℤ) : Go ConsensusState := do
  let past := (countUp (round + 1) cs.round).foldl (fun m r => m.erase r) cs.pastRoundStates
  let cs := ({ cs with pastRoundStates := past }.updateRoundStep round .newRound).clearRound
  let voteSignAggr ← cs.voteSignAggr.resetTop2Round (wrapInt (round + 1))
  let votes ← cs.votes.resetTop2Round (wrapInt (round + 1))
  waitOrPropose env now { cs with voteSignAggr := voteSignAggr, votes := votes } height round

/-! ## Messages -/

/-- `ErrInvalidProposalPOLRound` and `ErrInvalidProposalSignature`. -/
inductive ProposalError
  | invalidProposalPOLRound
  | invalidProposalSignature
  deriving DecidableEq, Repr

/-- The end of `defaultSetProposal`: the proposal is taken over. -/
def acceptProposal (cs : ConsensusState) (proposal : Proposal) : Go ConsensusState := do
  let parts ← newPartSetFromHeader proposal.blockPartsHeader
  .ok { cs with
    proposal := some proposal
    proposalBlockParts := some parts
    proposerPeerKey := proposal.proposerPeerKey
    pastRoundStates := cs.pastRoundStates.insert cs.round roundProposed }

/-- The proposal's signature verifies under a validator's key. -/
def proposalVerifies (proposal : Proposal) (proposer : Validator) : Bool :=
  env.libs.verifyBytes proposer.pubKey
    (env.libs.proposalJSON env.ligoChainId (canonicalProposal proposal)) proposal.signature

/-- The condition under which `defaultSetProposal` goes back to the round of the proposal:
the round was entered, and no proposal was seen in it. -/
def lowerRoundOpen (cs : ConsensusState) (round : ℤ) : Bool :=
  !((cs.pastRoundStates.entries.length : ℤ) - 1 < round) &&
    (cs.pastRoundStates.lookup round).getD roundNotProposed == roundNotProposed

/-- `defaultSetProposal`. -/
def setProposal (cs : ConsensusState) (proposal : Option Proposal) :
    Go (ConsensusState × Option ProposalError) :=
  if cs.proposal.isSome then .ok (cs, none)
  else match proposal with
    | none => .error .nilDeref
    | some proposal =>
      if proposal.height ≠ cs.height ∨ proposal.round > cs.round then .ok (cs, none)
      else if RoundStepType.commit.val ≤ cs.step.val then .ok (cs, none)
      else if proposal.polRound ≠ -1 ∧
          (proposal.polRound < 0 ∨ proposal.round ≤ proposal.polRound) then
        .ok (cs, some .invalidProposalPOLRound)
      else if proposal.round = cs.round then do
        let (cs, proposer) ← cs.getProposer env now
        if !proposalVerifies env proposal proposer then
          .ok (cs, some .invalidProposalSignature)
        else do
          let cs ← cs.acceptProposal proposal
          .ok (cs, none)
      else do
        let (cs, proposer) ← cs.proposerByRound env now proposal.round
        if !proposalVerifies env proposal proposer.proposer then
          .ok (cs, some .invalidProposalSignature)
        else if !cs.lowerRoundOpen proposal.round then .ok (cs, none)
        else do
          let cs ← cs.enterLowerRound env now cs.height proposal.round
          let cs ← cs.acceptProposal proposal
          .ok (cs, none)

/-- The errors of `addProposalBlockPart`. -/
inductive BlockPartError
  | addPart (err : PartSet.AddPartError)
  | decode
  deriving DecidableEq, Repr

/-- What `addProposalBlockPart` does when the block is complete. -/
def onBlock (cs : ConsensusState) (height : ℕ) : Go ConsensusState :=
  if RoundStepType.propose.val ≤ cs.step.val ∧ cs.step.val ≤ RoundStepType.prevoteWait.val ∧
      cs.isProposalComplete then
    cs.enterPrevote env now height cs.round
  else if cs.step = .commit then cs.tryFinalizeCommit env height
  else .ok cs

/-- `addProposalBlockPart`: whether the part was added, and the error. -/
def addProposalBlockPart (cs : ConsensusState) (height : ℕ) (round : ℤ) (part : Option Part)
    (verify : Bool) : Go (ConsensusState × Bool × Option BlockPartError) :=
  if cs.height ≠ height ∨ cs.round ≠ round then .ok (cs, false, none)
  else match cs.proposalBlockParts, part with
    | none, _ => .ok (cs, false, none)
    | some _, none => .error .nilDeref
    | some parts, some part => do
      let (parts, added, err) ← parts.addPart env.libs part verify
      let cs := { cs with proposalBlockParts := some parts }
      match err with
      | some err => .ok (cs, added, some (.addPart err))
      | none =>
        if added && parts.isComplete then do
          let block := env.fromBytes parts.bytes
          let cs ← onBlock env now { cs with proposalBlock := block } height
          .ok (cs, true, if block.isNone then some .decode else none)
        else .ok (cs, added, none)

/-- `ErrInvalidSignatureAggr` and `ErrDuplicateSignatureAggr`. -/
inductive SignAggrError
  | invalidSignatureAggr
  | duplicateSignatureAggr
  deriving DecidableEq, Repr

/-- The part of `setMaj23SignAggr` for a prevote aggregate of the current round: it is
recorded, and a lock of a lower round on another block is given up. -/
def recordPrevoteMaj23 (cs : ConsensusState) (signAggr : SignAggr) : Go ConsensusState :=
  let cs := { cs with prevoteMaj23SignAggr := some signAggr }
  if cs.lockedBlock.isSome ∧ cs.lockedRound < signAggr.round then do
    let same ← NCBlock.hashesTo env.libs cs.lockedBlock signAggr.maj23.hash
    .ok (if same then cs else cs.unlock)
  else .ok cs

/-- `setMaj23SignAggr`. -/
def setMaj23SignAggr (cs : ConsensusState) (signAggr : SignAggr) :
    Go (ConsensusState × Option SignAggrError × Bool) :=
  if signAggr.height ≠ cs.height then .ok (cs, none, false)
  else if cs.validators.blsVerifySignAggr env.libs signAggr ≠ .ok true then
    .ok (cs, some .invalidSignatureAggr, false)
  else if !isVoteTypeValid signAggr.type_ then .ok (cs, some .invalidSignatureAggr, false)
  else
    let cs := { cs with voteSignAggr := cs.voteSignAggr.addSignAggr signAggr }
    if signAggr.round ≠ cs.round then .ok (cs, none, false)
    else if signAggr.type_ = voteTypePrevote then
      if cs.prevoteMaj23SignAggr.isSome then .ok (cs, some .duplicateSignatureAggr, false)
      else do
        let cs ← cs.recordPrevoteMaj23 env signAggr
        if cs.isProposalComplete then do
          let cs ← cs.enterPrecommit env now cs.height cs.round
          .ok (cs, none, true)
        else .ok (cs, none, false)
    else
      if cs.precommitMaj23SignAggr.isSome then .ok (cs, some .duplicateSignatureAggr, false)
      else
        let cs := { cs with precommitMaj23SignAggr := some signAggr }
        if cs.isProposalComplete then do
          let cs ← cs.enterCommit env cs.height cs.round
          .ok (cs, none, true)
        else .ok (cs, none, false)

/-- One round of the loop of `sendMaj23SignAggr` over the votes. -/
def collectVote (maj23 : BlockID) (acc : BitArray × List Signature × Bytes) (vote : Option Vote) :
    BitArray × List Signature × Bytes :=
  match vote with
  | some v =>
    if v.blockID = maj23 then
      (acc.1.set v.validatorIndex true, acc.2.1 ++ [v.signature], v.signBytes)
    else acc
  | none => acc

/-- The bits and the signatures that `sendMaj23SignAggr` collects: those of the votes for
the majority block. -/
def collectVotes (numValidators : ℕ) (maj23 : BlockID) (votes : List (Option Vote)) :
    BitArray × List Signature × Bytes :=
  votes.foldl (collectVote maj23) (List.replicate numValidators false, [], [])

/-- `sendMaj23SignAggr`. -/
def sendMaj23SignAggr (cs : ConsensusState) (voteType : ℕ) : ConsensusState :=
  let voteSet :=
    if voteType = voteTypePrevote then cs.votes.prevotes cs.round
    else if voteType = voteTypePrecommit then cs.votes.precommits cs.round
    else none
  match voteSet, voteSet.bind VoteSet.maj23 with
  | some voteSet, some maj23 =>
    let (bits, sigs, ss) := collectVotes cs.validators.size maj23 voteSet.votes
    match env.libs.blsSignatureAggregate sigs with
    | none => cs
    | some signature =>
      let signAggr :=
        { makeSignAggr cs.height cs.round voteType cs.validators.size maj23 cs.votes.chainID bits
            (some signature) with signBytes := ss }
      if maj23.isZero then cs
      else (cs.emit (.signAggr signAggr)).sendInternalMessage (.maj23SignAggr (some signAggr))
  | _, _ => cs

/-- `addVote`: only the proposer collects votes, and it stops at the first majority. -/
def addVote (cs : ConsensusState) (vote : Option Vote) (peerKey : String) :
    Go (ConsensusState × Bool × Option HeightVoteSet.AddVoteError) := do
  let (cs, isProposer) ← cs.isProposer env now
  if !isProposer then .ok (cs, false, none)
  else match vote with
    | none => .error .nilDeref
    | some vote =>
      if vote.height ≠ cs.height ∨ ofUint64 vote.round ≠ cs.round then .ok (cs, false, none)
      else
        let voteSet (cs : ConsensusState) :=
          if vote.type_ = voteTypePrevote then cs.votes.prevotes cs.round
          else cs.votes.precommits cs.round
        if hasTwoThirdsMajority (voteSet cs) then .ok (cs, false, none)
        else do
          let (votes, added, err) ← cs.votes.addVote env.libs vote peerKey
          let cs := { cs with votes := votes }
          .ok (if added && hasTwoThirdsMajority (voteSet cs) then
              cs.sendMaj23SignAggr env vote.type_
            else cs, added, err)

/-- `handleMsg`.  The error of a handler is logged. -/
def handleMsg (cs : ConsensusState) (msg : Message) (peerKey : String) : Go ConsensusState :=
  match msg with
  | .proposal proposal => Prod.fst <$> cs.setProposal env now proposal
  | .blockPart height round part =>
    Prod.fst <$> cs.addProposalBlockPart env now height round part (peerKey != "")
  | .maj23SignAggr none => .ok cs
  | .maj23SignAggr (some signAggr) =>
    if signAggr.height = cs.height then Prod.fst <$> cs.setMaj23SignAggr env now signAggr
    else .ok cs
  | .vote vote => Prod.fst <$> cs.addVote env now vote peerKey

/-- `handleTimeout`. -/
def handleTimeout (cs : ConsensusState) (ti : TimeoutInfo) : Go ConsensusState :=
  if ti.height ≠ cs.height ∨ ti.round < cs.round ∨
      (ti.round = cs.round ∧ ti.step.val < cs.step.val) then .ok cs
  else match ti.step with
    | .newHeight => cs.enterNewRound env now ti.height 0
    | .waitForMinerBlock => cs.enterPropose env now ti.height ti.round
    | .propose => cs.enterPrevote env now ti.height ti.round
    | .prevoteWait => cs.enterPrecommit env now ti.height ti.round
    | .precommitWait => cs.enterNewRound env now ti.height (wrapInt (ti.round + 1))
    | _ => .error (.sanity "Invalid timeout step")

end ConsensusState

end Consensus
end LigoChain
