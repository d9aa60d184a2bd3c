/-
# Header verification

`backend.verifyHeader`, `verifyCascadingFields` and `verifyCommittedSeals` in
`chain/consensus/tendermint/engine.go`, with `Header.Hash`
(`chain/core/types/block.go`), `TendermintFilteredHeader`
(`chain/core/types/tendermint.go`) and `GetEpochByBlockNumber`
(`epoch/epoch.go`).

What other components answer while a header is checked is in `Backend`: the chain
reader, the epochs on disk, and, because the code polls, the successive answers
of `GetEpoch` and `GetHeightFromMainChain`.  A header whose epoch does not come
up in the given answers leaves the code waiting.

The commit that `verifyCommittedSeals` checks is the one in the header's own
extra data, under the chain id and the height of that same extra data.  Nothing
compares these with the header.  The hash of a header replaces the extra data by
a constant, so the extra data of an accepted header can be moved to another header
of the same parent: `verifyHeader_twin`.
-/

import LigoChain.Types.ValidatorSet
import LigoChain.Types.PlainLibs

namespace LigoChain
namespace Engine

/-- `Header` in `core/types/block.go`. -/
structure Header where
  parentHash : Bytes
  uncleHash : Bytes
  coinbase : Bytes
  root : Bytes
  txHash : Bytes
  receiptHash : Bytes
  bloom : Bytes
  difficulty : Option ℤ
  number : Option ℕ
  gasLimit : ℕ
  gasUsed : ℕ
  time : ℤ
  extra : Bytes
  mixDigest : Bytes
  nonce : Bytes
  mainChainNumber : Option ℤ
  deriving DecidableEq, Repr

/-- `Epoch`, as far as header verification reads it. -/
structure Epoch where
  number : ℕ
  startBlock : ℕ
  endBlock : ℕ
  validators : Option ValidatorSet
  deriving DecidableEq, Repr

/-- The errors of header verification, under the names they have in `engine.go`. -/
inductive HeaderError
  | errUnknownBlock
  | errInvalidExtraDataFormat
  | errInvalidNonce
  | errInvalidMixDigest
  | errInvalidUncleHash
  | errInvalidDifficulty
  | errUnknownAncestor
  | errInconsistentValidatorSet
  | errInvalidCommittedSeals
  | errInvalidSignature
  | errInvalidMainChainNumber
  | errMainChainNotCatchup
  deriving DecidableEq, Repr

/-- How a call ends: with an error or `nil`, in a panic, or not yet. -/
inductive Verdict
  | returns (err : Option HeaderError)
  | panics (p : GoPanic)
  | waits
  deriving DecidableEq, Repr

/-- The call returned `nil`. -/
abbrev Verdict.accepted : Verdict := .returns none

/-- `TendermintDigest`, which is the hexadecimal of this text. -/
def tendermintDigest : Bytes :=
  [0x63, 0x74, 0x69, 0x63, 0x61, 0x6c, 0x20, 0x62, 0x79, 0x7a, 0x61, 0x6e, 0x74, 0x69, 0x6e, 0x65,
   0x20, 0x66, 0x61, 0x75, 0x6c, 0x74, 0x20, 0x74, 0x6f, 0x6c, 0x65, 0x72, 0x61, 0x6e, 0x63, 0x65]

/-- `TendermintEmptyNonce`. -/
def tendermintEmptyNonce : Bytes := List.replicate 8 0

/-- `TendermintNonce`. -/
def tendermintNonce : Bytes := [0x88, 0xff, 0x88, 0xff, 0x88, 0xff, 0x88, 0xff]

/-- `TendermintDefaultDifficulty`. -/
def tendermintDefaultDifficulty : ℤ := 1

/-- `MagicExtra`, the bytes of `"ligochain_tmp_extra"`. -/
def magicExtra : Bytes :=
  [0x6c, 0x69, 0x67, 0x6f, 0x63, 0x68, 0x61, 0x69, 0x6e, 0x5f, 0x74, 0x6d, 0x70, 0x5f, 0x65, 0x78,
   0x74, 0x72, 0x61]

/-- The parts of the node and of the libraries that header verification calls. -/
structure Backend where
  libs : Libs
  rlpHash : Header → Bytes
  nilUncleHash : Bytes
  ligoChainId : String
  isMainChain : Bool
  getHeader : Bytes → ℕ → Option Header
  epoch : Option Epoch
  epochPolls : List Epoch
  loadOneEpoch : ℕ → Option Epoch
  mainChainHeights : ℕ → ℤ

/-- `TendermintFilteredHeader`. -/
def tendermintFilteredHeader (h : Header) : Header := { h with extra := magicExtra }

/-- `Header.Hash`. -/
def Header.hash (sb : Backend) (h : Header) : Bytes :=
  if h.mixDigest = tendermintDigest then sb.rlpHash (tendermintFilteredHeader h)
  else sb.rlpHash h

/-- `ExtractTendermintExtra`: empty extra data is the zero extra. -/
def extractTendermintExtra (L : Libs) (h : Header) : Option TendermintExtra :=
  if h.extra.isEmpty then some TendermintExtra.zero else L.readExtra h.extra

/-- The loop of `GetEpochByBlockNumber` over the earlier epochs, counting down from
`number - 1`.  Below epoch `0` the `uint64` counter wraps to a number no epoch has. -/
def searchEpoch (sb : Backend) (blockNumber : ℕ) : ℕ → Option Epoch
  | 0 => none
  | number + 1 =>
    match sb.loadOneEpoch number with
    | none => none
    | some ep =>
      if ep.startBlock ≤ blockNumber ∧ blockNumber ≤ ep.endBlock then some ep
      else searchEpoch sb blockNumber number

/-- `GetEpochByBlockNumber`. -/
def getEpochByBlockNumber (sb : Backend) (epoch : Epoch) (blockNumber : ℕ) : Option Epoch :=
  if epoch.startBlock ≤ blockNumber ∧ blockNumber ≤ epoch.endBlock then some epoch
  else searchEpoch sb blockNumber epoch.number

/-- `Number.Uint64()`. -/
def uint64OfBig (n : ℕ) : ℕ := n % 2 ^ 64

/-- `verifyCommittedSeals`. -/
def verifyCommittedSeals (sb : Backend) (header : Header) (number : ℕ) : Verdict :=
  match extractTendermintExtra sb.libs header with
  | none => .returns (some .errInvalidExtraDataFormat)
  | some ncExtra =>
    match sb.epoch with
    | none => .returns (some .errInconsistentValidatorSet)
    | some epoch =>
      if epoch.validators.isNone then .returns (some .errInconsistentValidatorSet)
      else match (getEpochByBlockNumber sb epoch (uint64OfBig number)).bind Epoch.validators with
        | none => .returns (some .errInconsistentValidatorSet)
        | some valSet =>
          if valSet.hash sb.libs ≠ ncExtra.validatorsHash then
            .returns (some .errInconsistentValidatorSet)
          else match ncExtra.seenCommit with
            | none => .panics .nilDeref
            | some seenCommit =>
              if ncExtra.seenCommitHash ≠ sb.libs.hashFromCommit seenCommit then
                .returns (some .errInvalidCommittedSeals)
              else
                match valSet.verifyCommit sb.libs ncExtra.chainID ncExtra.height seenCommit with
                | .error p => .panics p
                | .ok (.error _) => .returns (some .errInvalidSignature)
                | .ok (.ok ()) => .accepted

/-- `verifyCascadingFields`. -/
def verifyCascadingFields (sb : Backend) (header : Header) (bigNumber : ℕ)
    (parents : List Header) : Verdict :=
  let number := uint64OfBig bigNumber
  if number = 0 then .accepted
  else
    let parent :=
      if parents.isEmpty then sb.getHeader header.parentHash (number - 1) else parents.getLast?
    match parent with
    | none => .returns (some .errUnknownAncestor)
    | some parent =>
      match parent.number with
      | none => .panics .nilDeref
      | some parentNumber =>
        if uint64OfBig parentNumber ≠ number - 1 ∨ parent.hash sb ≠ header.parentHash then
          .returns (some .errUnknownAncestor)
        else verifyCommittedSeals sb header bigNumber

/-- The checks of a side chain at the end of `verifyHeader`: the main chain's height,
polled at most eleven times, has to reach the header's `MainChainNumber`. -/
def verifyMainChainNumber (sb : Backend) (header : Header) : Verdict :=
  if sb.isMainChain then .accepted
  else match header.mainChainNumber with
    | none => .returns (some .errInvalidMainChainNumber)
    | some mainChainNumber =>
      if (List.range 11).any fun tried => mainChainNumber ≤ sb.mainChainHeights tried then .accepted
      else .returns (some .errMainChainNotCatchup)

/-- `verifyHeader`.  The time of a header from the future is only logged. -/
def verifyHeader (sb : Backend) (header : Header) (parents : List Header) : Verdict :=
  match header.number with
  | none => .returns (some .errUnknownBlock)
  | some number =>
    if (extractTendermintExtra sb.libs header).isNone then
      .returns (some .errInvalidExtraDataFormat)
    else if header.nonce ≠ tendermintEmptyNonce ∧ header.nonce ≠ tendermintNonce then
      .returns (some .errInvalidNonce)
    else if header.mixDigest ≠ tendermintDigest then .returns (some .errInvalidMixDigest)
    else if header.uncleHash ≠ sb.nilUncleHash then .returns (some .errInvalidUncleHash)
    else if header.difficulty ≠ some tendermintDefaultDifficulty then
      .returns (some .errInvalidDifficulty)
    else if !sb.epochPolls.any fun ep => uint64OfBig number ≤ ep.endBlock then .waits
    else match verifyCascadingFields sb header number parents with
      | .returns none => verifyMainChainNumber sb header
      | verdict => verdict

/-! ## What an accepted header carries -/

/-- The block identifier of the commit in a header's extra data. -/
def commitBlockID (L : Libs) (header : Header) : Option BlockID :=
  ((extractTendermintExtra L header).bind TendermintExtra.seenCommit).map Commit.blockID

/-- The validators of the epoch that contains a block number. -/
def validatorsAt (sb : Backend) (number : ℕ) : Option ValidatorSet :=
  sb.epoch.bind fun epoch =>
    (getEpochByBlockNumber sb epoch (uint64OfBig number)).bind Epoch.validators

/-- The commit in the extra data is a quorum signature, over the chain id and the
height that the extra data names. -/
def CarriesQuorum (sb : Backend) (header : Header) (number : ℕ) : Prop :=
  ∃ extra c bits valSet,
    extractTendermintExtra sb.libs header = some extra ∧ extra.seenCommit = some c ∧
    c.bitArray = some bits ∧ c.height = extra.height ∧ validatorsAt sb number = some valSet ∧
    valSet.Quorum sb.libs bits c.round
      (sb.libs.signBytes extra.chainID
        ⟨c.blockID, c.height, GoInt.toUint64 c.round, voteTypePrecommit⟩)
      (c.signAggr.getD [])

/-- **What `verifyCommittedSeals` has checked.** -/
theorem carriesQuorum_of_verifyCommittedSeals {sb : Backend} {header : Header} {number : ℕ}
    (h : verifyCommittedSeals sb header number = .accepted) : CarriesQuorum sb header number := by
  unfold verifyCommittedSeals at h
  split at h
  · simp at h
  next extra hextra =>
  split at h
  · simp at h
  next epoch hepoch =>
  split_ifs at h with hnone
  · simp at h
  split at h
  · simp at h
  next valSet hvalSet =>
  split_ifs at h with hhash
  · simp at h
  split at h
  · simp at h
  next seenCommit hcommit =>
  split_ifs at h with hcommitHash
  · simp at h
  split at h
  · simp at h
  · simp at h
  next hverify =>
  obtain ⟨c, bits, hc, hbits, hheight, hq⟩ := valSet.verifyCommit_eq_ok hverify
  cases hc
  exact ⟨extra, seenCommit, bits, valSet, hextra, hcommit, hbits, hheight.symm,
    by simp [validatorsAt, hepoch, hvalSet], hq⟩

/-- **A header of positive number that `verifyHeader` accepts carries a quorum** of the
validators of its epoch, over whatever its extra data says. -/
theorem verifyHeader_carriesQuorum {sb : Backend} {header : Header} {parents : List Header}
    {number : ℕ} (hnumber : header.number = some number) (hpos : uint64OfBig number ≠ 0)
    (h : verifyHeader sb header parents = .accepted) : CarriesQuorum sb header number := by
  unfold verifyHeader at h
  simp only [hnumber] at h
  split_ifs at h
  all_goals try simp at h
  split at h
  · next hcascade =>
    unfold verifyCascadingFields at hcascade
    simp only [if_neg hpos] at hcascade
    split at hcascade
    · simp at hcascade
    next parent hparent =>
    split at hcascade
    · simp at hcascade
    split_ifs at hcascade with hanc
    · simp at hcascade
    exact carriesQuorum_of_verifyCommittedSeals hcascade
  · next hne => exact absurd h hne

/-- A header is authentic: its commit is a quorum signature over this block of this chain. -/
structure Authentic (sb : Backend) (header : Header) : Prop where
  quorum : ∀ number, header.number = some number → CarriesQuorum sb header number
  height : ∀ extra, extractTendermintExtra sb.libs header = some extra →
    header.number = some extra.height
  chainID : ∀ extra, extractTendermintExtra sb.libs header = some extra →
    extra.chainID = sb.ligoChainId
  bound : ∀ header' parents', verifyHeader sb header' parents' = .accepted →
    header'.hash sb ≠ header.hash sb → commitBlockID sb.libs header' ≠ commitBlockID sb.libs header

/-- The same header with another `GasUsed`. -/
def Header.twin (header : Header) : Header :=
  { header with gasUsed := if header.gasUsed = 0 then 1 else 0 }

/-- Header verification does not read `GasUsed`. -/
theorem verifyHeader_twin (sb : Backend) (header : Header) (parents : List Header) :
    verifyHeader sb header.twin parents = verifyHeader sb header parents := rfl

theorem hash_twin_ne {sb : Backend} (hhash : Function.Injective sb.rlpHash) (header : Header) :
    header.twin.hash sb ≠ header.hash sb := by
  have hne : header.twin.gasUsed ≠ header.gasUsed := by
    unfold Header.twin
    split_ifs with h0
    · simp [h0]
    · exact Ne.symm h0
  have hmix : header.twin.mixDigest = header.mixDigest := rfl
  intro heq
  unfold Header.hash at heq
  rw [hmix] at heq
  split_ifs at heq
  · exact hne (congrArg Header.gasUsed (hhash heq) :)
  · exact hne (congrArg Header.gasUsed (hhash heq))

/-- **No accepted header is authentic.**  With a collision-free header hash, every
accepted header has a twin that is accepted with the same parents and the same
commit, and has another hash. -/
theorem verifyHeader_not_authentic {sb : Backend} (hhash : Function.Injective sb.rlpHash)
    {header : Header} {parents : List Header} (h : verifyHeader sb header parents = .accepted) :
    ¬ Authentic sb header := fun hauth =>
  hauth.bound header.twin parents ((verifyHeader_twin sb header parents).trans h)
    (hash_twin_ne hhash header) rfl

/-! ## A replayed commit -/

/-- The field of an integer: its positive and its negative part. -/
def intField (x : ℤ) : Bytes := PlainLibs.natsCode [x.toNat, (-x).toNat]

/-- The field of a number that can be `nil`. -/
def optionField {α : Type} (f : α → Bytes) (x : Option α) : Bytes := (x.map f).getD []

/-- The fields of a header, for a header hash without collisions. -/
def headerFields (h : Header) : List Bytes :=
  [h.parentHash, h.uncleHash, h.coinbase, h.root, h.txHash, h.receiptHash, h.bloom,
    optionField intField h.difficulty, optionField PlainLibs.natCode h.number,
    PlainLibs.natsCode [h.gasLimit, h.gasUsed], intField h.time, h.extra, h.mixDigest, h.nonce,
    optionField intField h.mainChainNumber]

theorem intField_inj {x y : ℤ} : intField x = intField y ↔ x = y := by
  simp only [intField, PlainLibs.natsCode_inj, List.cons.injEq, and_true]
  omega

theorem optionField_inj {α : Type} {f : α → Bytes} (hf : Function.Injective f)
    (hne : ∀ a, f a ≠ []) {x y : Option α} : optionField f x = optionField f y ↔ x = y := by
  cases x <;> cases y <;> simp [optionField, hf.eq_iff, hne, (hne _).symm]

theorem headerFields_injective : Function.Injective headerFields := by
  have hint : Function.Injective intField := fun _ _ => intField_inj.1
  have hnat : Function.Injective PlainLibs.natCode := fun n m h =>
    (PlainLibs.natCode_append_inj (r := []) (s := []) (by rw [h])).1
  rintro ⟨⟩ ⟨⟩ h
  simp only [headerFields, List.cons.injEq, PlainLibs.natsCode_inj, intField_inj, and_true,
    optionField_inj hint (by simp [intField, PlainLibs.natsCode, PlainLibs.natCode]),
    optionField_inj hnat (by simp [PlainLibs.natCode])] at h
  simp only [Header.mk.injEq]
  tauto

/-- One validator of power `1`, whose key is the byte `1`. -/
def soleValidator : ValidatorSet where
  validators := [⟨[1], [1], 1, 0⟩]

/-- A commit of the sole validator to some block at height `3` of a chain named `other`. -/
def otherCommit : Commit where
  blockID := ⟨[9], ⟨1, [8]⟩⟩
  height := 3
  round := 0
  signAggr := some (PlainLibs.sign [1]
    (plainLibs.signBytes "other" ⟨⟨[9], ⟨1, [8]⟩⟩, 3, 0, voteTypePrecommit⟩))
  bitArray := some [true]

/-- The extra data of that block. -/
def otherExtra : TendermintExtra :=
  { TendermintExtra.zero with
    chainID := "other"
    height := 3
    validatorsHash := soleValidator.hash plainLibs
    seenCommit := some otherCommit
    seenCommitHash := plainLibs.hashFromCommit otherCommit }

/-- A main chain named `ligo` whose validator set is the sole validator. -/
def soleBackend : Backend where
  libs := { plainLibs with readExtra := fun b => if b = [7] then some otherExtra else none }
  rlpHash h := PlainLibs.fieldsCode (headerFields h)
  nilUncleHash := []
  ligoChainId := "ligo"
  isMainChain := true
  getHeader _ _ := none
  epoch := some ⟨0, 0, 100, some soleValidator⟩
  epochPolls := [⟨0, 0, 100, some soleValidator⟩]
  loadOneEpoch _ := none
  mainChainHeights _ := 0

/-- A header of number `4`. -/
def parentHeader : Header where
  parentHash := []
  uncleHash := []
  coinbase := []
  root := []
  txHash := []
  receiptHash := []
  bloom := []
  difficulty := some 1
  number := some 4
  gasLimit := 0
  gasUsed := 0
  time := 0
  extra := []
  mixDigest := tendermintDigest
  nonce := tendermintEmptyNonce
  mainChainNumber := none

/-- A header of number `5` with the extra data of height `3` of the other chain. -/
def replayHeader : Header :=
  { parentHeader with
    number := some 5
    parentHash := parentHeader.hash soleBackend
    extra := [7] }

theorem verifyHeader_carriesQuorum_replayed : CarriesQuorum soleBackend replayHeader 5 :=
  verifyHeader_carriesQuorum rfl (by decide) (by decide +kernel : verifyHeader soleBackend
    replayHeader [parentHeader] = .accepted)

/-- **A commit of another chain and another height is accepted**, under two headers of
different hash. -/
theorem verifyHeader_accepts_replayed_commit :
    verifyHeader soleBackend replayHeader [parentHeader] = .accepted ∧
    verifyHeader soleBackend replayHeader.twin [parentHeader] = .accepted ∧
    replayHeader.twin.hash soleBackend ≠ replayHeader.hash soleBackend ∧
    commitBlockID soleBackend.libs replayHeader.twin =
      commitBlockID soleBackend.libs replayHeader ∧
    extractTendermintExtra soleBackend.libs replayHeader = some otherExtra ∧
    otherExtra.height = 3 ∧ replayHeader.number = some 5 ∧
    otherExtra.chainID = "other" ∧ soleBackend.ligoChainId = "ligo" := by
  decide +kernel

/-- The hypotheses of `verifyHeader_not_authentic` are satisfiable: the replayed header is
accepted, by a node whose header hash has no collisions. -/
theorem verifyHeader_not_authentic_replayed :
    Function.Injective soleBackend.rlpHash ∧
      verifyHeader soleBackend replayHeader [parentHeader] = .accepted ∧
      ¬ Authentic soleBackend replayHeader := by
  have hinj : Function.Injective soleBackend.rlpHash := fun _ _ h =>
    headerFields_injective (PlainLibs.fieldsCode_injective h)
  have hacc : verifyHeader soleBackend replayHeader [parentHeader] = .accepted := by
    decide +kernel
  exact ⟨hinj, hacc, verifyHeader_not_authentic hinj hacc⟩

end Engine
end LigoChain
