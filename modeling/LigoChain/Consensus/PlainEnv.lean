/-
# A small network that can be computed with

Three validators of powers 100, 1 and 1 at the first height of a side chain, over the
plain-text libraries with hashes cut down to what tells the blocks of a run apart.  A
block is known by the time at which it was made, which is also its encoding, in one
part.  The header before this height makes the second validator the proposer of round
`0`; the third and the first follow.

The messages of `Message` that a run receives are built here as the validators of the
network build them.
-/

import LigoChain.Types.PlainLibs
import LigoChain.Consensus.Runs

namespace LigoChain
namespace Consensus
namespace PlainEnv

/-- The plain-text libraries with short hashes. -/
def libs : Libs :=
  { plainLibs with
    hashFromMap := fun m => [UInt8.ofNat m.height, UInt8.ofNat m.time.toNat]
    hashFromValidators := fun vals => vals.flatMap Validator.address
    hashFromCommit := fun c => c.blockID.hash }

/-- The chain of the network. -/
def chainID : String := "c"

/-- The validators: the key and the address of each are one byte. -/
def validators : ValidatorSet := ⟨[⟨[1], [1], 100, 0⟩, ⟨[2], [2], 1, 0⟩, ⟨[3], [3], 1, 0⟩]⟩

/-- The key of a validator. -/
def privValidator (key : UInt8) : PrivValidator := ⟨[key], PlainLibs.sign [key]⟩

/-- The extra data of the block before this height. -/
def lastExtra : TendermintExtra := { TendermintExtra.zero with chainID := chainID }

/-- The block made at a time. -/
def block (time : ℕ) : NCBlock where
  block := ⟨1, []⟩
  ntcExtra := some
    { TendermintExtra.zero with
      chainID := chainID
      height := 1
      time := time
      validatorsHash := validators.hash libs
      seenCommit := some ⟨BlockID.zero, 0, 0, none, none⟩ }
  tx3ProofData := []

/-- The encoding of a block. -/
def blockBytes (b : NCBlock) : Bytes :=
  [UInt8.ofNat ((b.ntcExtra.map TendermintExtra.time).getD 0).toNat]

/-- The node around the validators. -/
def env : Env where
  libs := libs
  ligoChainId := chainID
  nodeID := "node"
  epochNumber := 0
  epochStartBlock := 0
  epochEndBlock := 100
  currentHeader _ := ([100], 0)
  headerHashByNumber _ _ := none
  epochBytes _ := []
  nextEpochBytes _ := none
  shouldProposeNextEpoch _ _ := false
  proposeNextEpochBytes _ := []
  tx3ProofData _ _ := []
  makePartSet b := ⟨1, blockBytes b, [some ⟨0, blockBytes b, []⟩], [true], 1⟩
  fromBytes bytes := match bytes with
    | [time] => some (block time.toNat)
    | _ => none
  validateTX4 _ _ := true
  validateBlock _ _ := true
  validateEpochBytes _ _ := true
  hasWithdrawFromSideChain _ := false

/-- The `BlockID` of the block made at a time. -/
def blockID (time : UInt8) : BlockID := ⟨[1, time], 1, [time]⟩

/-- The proposal of a block by a validator. -/
def proposal (key : UInt8) (round : ℤ) (time : UInt8) : Message :=
  .proposal (some ((privValidator key).signProposal libs chainID
    { height := 1
      round := round
      hash := (blockID time).hash
      blockPartsHeader := (blockID time).partsHeader
      polRound := -1
      polBlockID := BlockID.zero
      proposerPeerKey := "node"
      signature := [] }))

/-- The only part of a block. -/
def blockPart (round : ℤ) (time : UInt8) : Message := .blockPart 1 round (some ⟨0, [time], []⟩)

/-- The vote of a validator, the key of which is one more than its index. -/
def vote (key : UInt8) (round : ℕ) (type_ : ℕ) (time : UInt8) : Message :=
  .vote (some ((privValidator key).signVote libs chainID
    { validatorAddress := [key]
      validatorIndex := key.toNat - 1
      height := 1
      round := round
      type_ := type_
      blockID := blockID time
      signature := []
      signBytes := [] }))

/-- The aggregate of the first validator's vote, which has the power of a majority. -/
def signAggr (round : ℕ) (type_ : ℕ) (time : UInt8) : SignAggr :=
  makeSignAggr 1 round type_ 3 (blockID time) chainID [true, false, false]
    (some (PlainLibs.sign [1] (libs.voteJSON chainID ⟨blockID time, 1, round, type_⟩)))

/-- A validator at the start of the height. -/
def start (key : UInt8) : Go ConsensusState :=
  ConsensusState.startNewHeight env lastExtra validators (some (privValidator key)) none

end PlainEnv
end Consensus
end LigoChain
