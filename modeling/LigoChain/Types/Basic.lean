/-
# Votes, commits and signature aggregates

The data of `chain/consensus/tendermint/types`: `PartSetHeader` (`part_set.go`),
`BlockID` and `Commit` (`block.go`), `Vote` (`vote.go`), `SignAggr`
(`sign_aggr.go`), `Validator` (`validator.go`), `TendermintExtra`
(`tendermint.go`), and the bytes a signature covers (`canonical_json.go`,
`signable.go`).

Byte slices are lists, and a `nil` slice is the empty one except where the code
compares with `nil` (an aggregate signature, a bit array), which is an `Option`.
A `*cmn.BitArray` is the list of its bits.

The libraries outside the repository that this package calls, `crypto-go`,
`wire-go` and `merkle-go`, are the fields of `Libs`.  Nothing is assumed about
them here; a result that needs a library to keep its promise names the promise
as a hypothesis.
-/

import LigoChain.Lib.GoInt
import Mathlib.Logic.Function.Basic

namespace LigoChain

/-- `[]byte`. -/
abbrev Bytes := List UInt8

/-- `crypto.PubKey`, by its bytes. -/
abbrev PubKey := Bytes

/-- `crypto.Signature` and `crypto.BLSSignature`, by their bytes. -/
abbrev Signature := Bytes

/-- The bits of a `cmn.BitArray`. -/
abbrev BitArray := List Bool

/-- A run-time panic of the Go code: a failed sanity check (`PanicSanity`,
`PanicConsensus`), an index out of range, a `nil` dereference. -/
inductive GoPanic
  | sanity (msg : String)
  | index
  | nilDeref
  | makeslice
  | divideByZero
  deriving DecidableEq, Repr

/-- `PartSetHeader` in `part_set.go`. -/
structure PartSetHeader where
  total : ℕ
  hash : Bytes
  deriving DecidableEq, Repr

/-- `PartSetHeader.IsZero`. -/
def PartSetHeader.isZero (psh : PartSetHeader) : Bool := psh.total == 0

/-- `BlockID` in `block.go`: a block hash and the header of the block's part set.
The Go `Equals` is equality of the two fields, here `=`. -/
structure BlockID where
  hash : Bytes
  partsHeader : PartSetHeader
  deriving DecidableEq, Repr

/-- The zero value `BlockID{}`. -/
def BlockID.zero : BlockID := ⟨[], ⟨0, []⟩⟩

/-- `BlockID.IsZero`: an empty hash and no parts. -/
def BlockID.isZero (blockID : BlockID) : Bool :=
  blockID.hash.isEmpty && blockID.partsHeader.isZero

@[simp] theorem BlockID.isZero_zero : BlockID.zero.isZero = true := rfl

/-- `VoteTypePrevote`. -/
def voteTypePrevote : ℕ := 1

/-- `VoteTypePrecommit`. -/
def voteTypePrecommit : ℕ := 2

/-- `IsVoteTypeValid`. -/
def isVoteTypeValid (type_ : ℕ) : Bool := type_ == voteTypePrevote || type_ == voteTypePrecommit

/-- `Vote` in `vote.go`. -/
structure Vote where
  validatorAddress : Bytes
  validatorIndex : ℕ
  height : ℕ
  round : ℕ
  type_ : ℕ
  blockID : BlockID
  signature : Signature
  signBytes : Bytes
  deriving DecidableEq, Repr

/-- `Commit` in `block.go`, without its hash cache. -/
structure Commit where
  blockID : BlockID
  height : ℕ
  round : ℤ
  signAggr : Option Signature
  bitArray : Option BitArray
  deriving DecidableEq, Repr

/-- `SignAggr` in `sign_aggr.go`. -/
structure SignAggr where
  chainID : String
  height : ℕ
  round : ℤ
  type_ : ℕ
  numValidators : ℤ
  blockID : BlockID
  maj23 : BlockID
  bitArray : Option BitArray
  sum : ℤ
  signatureAggr : Option Signature
  signBytes : Bytes
  deriving DecidableEq, Repr

/-- `MakeSignAggr`: one block identifier fills both `BlockID` and `Maj23`. -/
def makeSignAggr (height : ℕ) (round : ℤ) (mtype : ℕ) (numValidators : ℤ) (blockID : BlockID)
    (chainID : String) (bitArray : BitArray) (signAggr : Option Signature) : SignAggr where
  height := height
  round := round
  type_ := mtype
  numValidators := numValidators
  blockID := blockID
  maj23 := blockID
  chainID := chainID
  bitArray := some bitArray
  signatureAggr := signAggr
  sum := 0
  signBytes := []

/-- `SignAggr.TwoThirdsMajority`, which a `nil` aggregate answers too: the block
`Maj23`, unless that is zero. -/
def twoThirdsMajority : Option SignAggr → BlockID × Bool
  | none => (BlockID.zero, false)
  | some sa => if sa.maj23.isZero = true then (BlockID.zero, false) else (sa.maj23, true)

/-- What `TwoThirdsMajority` returns with `ok`, it read from `Maj23`. -/
theorem twoThirdsMajority_eq_true {sa : Option SignAggr} {blockID : BlockID}
    (h : twoThirdsMajority sa = (blockID, true)) :
    ∃ s, sa = some s ∧ s.maj23 = blockID ∧ s.maj23.isZero = false := by
  cases sa with
  | none => simp [twoThirdsMajority] at h
  | some s =>
    simp only [twoThirdsMajority] at h
    split_ifs at h with hz
    · simp at h
    · exact ⟨s, rfl, (Prod.mk.inj h).1, by simpa using hz⟩

/-- `SignAggr.MakeCommit`: the commit is over `Maj23`. -/
def SignAggr.makeCommit (sa : SignAggr) : Commit where
  blockID := sa.maj23
  height := sa.height
  round := sa.round
  signAggr := sa.signatureAggr
  bitArray := sa.bitArray

/-- `CanonicalJSONVote`, the part of a vote that its signature covers. -/
structure CanonicalJSONVote where
  blockID : BlockID
  height : ℕ
  round : ℕ
  type_ : ℕ
  deriving DecidableEq, Repr

/-- `CanonicalVote`. -/
def canonicalVote (vote : Vote) : CanonicalJSONVote :=
  ⟨vote.blockID, vote.height, vote.round, vote.type_⟩

/-- `CanonicalJSONProposal`, the part of a proposal that its signature covers. -/
structure CanonicalJSONProposal where
  blockPartsHeader : PartSetHeader
  height : ℕ
  polBlockID : BlockID
  polRound : ℤ
  round : ℤ
  hash : Bytes
  deriving DecidableEq, Repr

/-- `Validator` in `validator.go`. -/
structure Validator where
  address : Bytes
  pubKey : PubKey
  votingPower : ℤ
  remainingEpoch : ℕ
  deriving DecidableEq, Repr

/-- `TendermintExtra` in `tendermint.go`, what a block header carries in its `Extra`.
The time is in seconds. -/
structure TendermintExtra where
  chainID : String
  height : ℕ
  time : ℤ
  needToSave : Bool
  needToBroadcast : Bool
  epochNumber : ℕ
  seenCommitHash : Bytes
  validatorsHash : Bytes
  seenCommit : Option Commit
  epochBytes : Bytes
  deriving DecidableEq, Repr

/-- The zero value `TendermintExtra{}`. -/
def TendermintExtra.zero : TendermintExtra where
  chainID := ""
  height := 0
  time := 0
  needToSave := false
  needToBroadcast := false
  epochNumber := 0
  seenCommitHash := []
  validatorsHash := []
  seenCommit := none
  epochBytes := []

/-- The map whose Merkle hash is the hash of a block: all of `TendermintExtra` but the
commit and its hash. -/
structure ExtraMap where
  chainID : String
  height : ℕ
  time : ℤ
  needToSave : Bool
  needToBroadcast : Bool
  epochNumber : ℕ
  validators : Bytes
  epochBytes : Bytes
  deriving DecidableEq, Repr

/-- The libraries outside the repository: signatures and their aggregation
(`crypto-go`), encodings (`wire-go`), and the hashes and Merkle proofs
(`merkle-go`, `ripemd160`, `sha256`). -/
structure Libs where
  verifyBytes : PubKey → Bytes → Signature → Bool
  blsPubKeyAggregate : List PubKey → Option PubKey
  blsSignatureAggregate : List Signature → Option Signature
  voteJSON : String → CanonicalJSONVote → Bytes
  proposalJSON : String → CanonicalJSONProposal → Bytes
  readExtra : Bytes → Option TendermintExtra
  hashFromMap : ExtraMap → Bytes
  hashFromValidators : List Validator → Bytes
  hashFromCommit : Commit → Bytes
  partHash : Bytes → Bytes
  proofVerify : List Bytes → ℤ → ℤ → Bytes → Bytes → Bool
  sha256 : Bytes → Bytes

/-- `TendermintExtra.Hash`. -/
def TendermintExtra.hash (L : Libs) (te : TendermintExtra) : Bytes :=
  if te.validatorsHash.isEmpty then []
  else L.hashFromMap
    { chainID := te.chainID
      height := te.height
      time := te.time
      needToSave := te.needToSave
      needToBroadcast := te.needToBroadcast
      epochNumber := te.epochNumber
      validators := te.validatorsHash
      epochBytes := te.epochBytes }

/-- `SignBytes(chainID, vote)`. -/
def Libs.signBytes (L : Libs) (chainID : String) (vote : CanonicalJSONVote) : Bytes :=
  L.voteJSON chainID vote

/-- The encoding of votes is injective: one message is signed for one chain and one vote. -/
def Libs.VoteJSONInjective (L : Libs) : Prop := Function.Injective2 L.voteJSON

end LigoChain
