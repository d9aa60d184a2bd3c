/-
# What the hash of a block identifies

`NCBlock.Hash` and `HashesTo` (`types/block.go`), `TendermintExtra.Hash` (`types/tendermint.go`), and
`enterPrecommit`, `enterCommit` and `finalizeCommit` (`consensus/state.go`).  A vote names a block by
its hash and by the header of its parts; locking and committing compare only the hash, and
`finalizeCommit` then asserts that the parts have the header of the vote.

The hash covers eight fields of the extra data.  It covers neither the block that is executed nor
the proofs of withdrawals.  So **a hash identifies a block among two exactly if the two differ in
one of the eight fields or not at all** (`identifies_iff`).  A proposer who gives two blocks one
extra data stops every validator that holds the one when the other is decided
(`one_hash_two_blocks`).
-/

import LigoChain.Consensus.AggregateSafety

namespace LigoChain

/-- The map that `TendermintExtra.Hash` hashes. -/
def TendermintExtra.covered (te : TendermintExtra) : ExtraMap where
  chainID := te.chainID
  height := te.height
  time := te.time
  needToSave := te.needToSave
  needToBroadcast := te.needToBroadcast
  epochNumber := te.epochNumber
  validators := te.validatorsHash
  epochBytes := te.epochBytes

/-- Merkle hashing is free of collisions, and gives a hash. -/
structure Libs.CollisionFree (L : Libs) : Prop where
  injective : Function.Injective L.hashFromMap
  nonempty : ∀ m, L.hashFromMap m ≠ []

namespace NCBlock

/-- Both blocks have a hash, and agree in what it covers. -/
structure SameCovered (b₁ b₂ : NCBlock) : Prop where
  exists_extra : ∃ e₁ e₂, b₁.ntcExtra = some e₁ ∧ b₂.ntcExtra = some e₂ ∧
    e₁.seenCommit.isSome = true ∧ e₂.seenCommit.isSome = true ∧ e₁.validatorsHash ≠ [] ∧
    e₁.covered = e₂.covered

variable {L : Libs} {b b₁ b₂ : NCBlock} {h : Bytes}

theorem covered_validators (te : TendermintExtra) : te.covered.validators = te.validatorsHash := rfl

/-- A hash that is not `nil` is the hash of the covered fields. -/
theorem hash_eq_ok (hne : h ≠ []) (hhash : hash L (some b) = .ok h) :
    ∃ e, b.ntcExtra = some e ∧ e.seenCommit.isSome = true ∧ e.validatorsHash ≠ [] ∧
      h = L.hashFromMap e.covered := by
  unfold hash at hhash
  dsimp only at hhash
  cases hextra : b.ntcExtra with
  | none => simp [hextra] at hhash
  | some e =>
    rw [hextra] at hhash
    have hh := Except.ok.inj hhash
    split_ifs at hh with hnone
    · exact absurd hh.symm hne
    · unfold TendermintExtra.hash at hh
      split_ifs at hh with hempty
      · exact absurd hh.symm hne
      · exact ⟨e, rfl, by simpa [Option.isSome_iff_ne_none] using hnone, by simpa using hempty,
          hh.symm⟩

theorem hash_of_covered {e : TendermintExtra} (hextra : b.ntcExtra = some e)
    (hcommit : e.seenCommit.isSome = true) (hvalidators : e.validatorsHash ≠ []) :
    hash L (some b) = .ok (L.hashFromMap e.covered) := by
  unfold hash
  dsimp only
  rw [hextra]
  dsimp only
  rw [if_neg (by simpa [Option.isSome_iff_ne_none] using hcommit), TendermintExtra.hash,
    if_neg (by simpa using hvalidators)]
  rfl

theorem hashesTo_of_hash (hne : h ≠ []) (hhash : hash L (some b) = .ok h) :
    hashesTo L (some b) h = .ok true := by
  unfold hashesTo
  rw [if_neg (by simpa using hne), if_neg (by simp), hhash]
  simp [Functor.map, Except.map]

/-- **Two blocks share a hash exactly if they agree in the covered fields.** -/
theorem hash_eq_iff (hfree : L.CollisionFree) :
    (∃ h ≠ [], hash L (some b₁) = .ok h ∧ hash L (some b₂) = .ok h) ↔ SameCovered b₁ b₂ := by
  constructor
  · rintro ⟨h, hne, h₁, h₂⟩
    obtain ⟨e₁, he₁, hc₁, hv₁, rfl⟩ := hash_eq_ok hne h₁
    obtain ⟨e₂, he₂, hc₂, -, heq⟩ := hash_eq_ok hne h₂
    exact ⟨e₁, e₂, he₁, he₂, hc₁, hc₂, hv₁, hfree.injective heq⟩
  · rintro ⟨e₁, e₂, he₁, he₂, hc₁, hc₂, hv₁, heq⟩
    refine ⟨_, hfree.nonempty e₁.covered, hash_of_covered he₁ hc₁ hv₁, ?_⟩
    have hv₂ : e₂.validatorsHash ≠ [] := by
      rw [← covered_validators, ← heq]
      exact hv₁
    rw [heq]
    exact hash_of_covered he₂ hc₂ hv₂

end NCBlock

namespace Consensus

open ConsensusState

/-- The `BlockID` that a vote for a block has. -/
structure IdOf (env : Env) (b : NCBlock) (id : BlockID) : Prop where
  hash : NCBlock.hash env.libs (some b) = .ok id.hash
  header : id.partsHeader = PartSet.header (some (env.makePartSet b))

/-- A validator is locked on a block and has its parts. -/
structure LockedOn (env : Env) (cs : ConsensusState) (b : NCBlock) : Prop where
  block : cs.lockedBlock = some b
  parts : cs.lockedBlockParts = some (env.makePartSet b)

/-- **The hash identifies the block**: a second block with the hash of the first has the same content
and the same proofs; the parts of the first, when it has the hash of a vote for the second, have the
header of the vote; and a validator that is locked on the first then commits it, if it is valid. -/
structure Identifies (env : Env) (b₁ b₂ : NCBlock) : Prop where
  content : ∀ h, h ≠ [] → NCBlock.hash env.libs (some b₁) = .ok h →
    NCBlock.hash env.libs (some b₂) = .ok h →
    b₁.block = b₂.block ∧ b₁.tx3ProofData = b₂.tx3ProofData
  parts : ∀ id, IdOf env b₂ id → NCBlock.hashesTo env.libs (some b₁) id.hash = .ok true →
    PartSet.hasHeader (some (env.makePartSet b₁)) id.partsHeader = true
  commits : ∀ cs id commitRound, LockedOn env cs b₁ → IdOf env b₂ id →
    NCBlock.hashesTo env.libs cs.lockedBlock id.hash = .ok true →
    twoThirdsMajority (cs.voteSignAggr.precommits commitRound) = (id, true) →
    b₁.validateBasic cs.ntcExtra = .ok true →
    ∃ cs', cs.enterCommit env cs.height commitRound = .ok cs'

section

variable {env : Env} {b₁ b₂ : NCBlock} {cs : ConsensusState} {id : BlockID}

theorem IdOf.sameCovered (hfree : env.libs.CollisionFree) (hid : IdOf env b₂ id)
    (hsame : NCBlock.hashesTo env.libs (some b₁) id.hash = .ok true) :
    NCBlock.SameCovered b₁ b₂ := by
  obtain ⟨hne, -, hhash⟩ := NCBlock.hashesTo_eq_true hsame
  exact (NCBlock.hash_eq_iff hfree).1 ⟨id.hash, hne, hhash, hid.hash⟩

/-- **`enterCommit` returns** when the locked block is the one to commit, it is valid, and its parts
are those of the vote. -/
theorem enterCommit_locked {commitRound : ℤ} {b : NCBlock} (hblock : cs.lockedBlock = some b)
    (hmaj : twoThirdsMajority (cs.voteSignAggr.precommits commitRound) = (id, true))
    (hsame : NCBlock.hashesTo env.libs cs.lockedBlock id.hash = .ok true)
    (hparts : PartSet.hasHeader cs.lockedBlockParts id.partsHeader = true)
    (hbasic : b.validateBasic cs.ntcExtra = .ok true) :
    ∃ cs', cs.enterCommit env cs.height commitRound = .ok cs' := by
  unfold enterCommit
  split_ifs with hdone
  · exact ⟨cs, rfl⟩
  rw [hmaj]
  dsimp only
  rw [hsame]
  simp only [bind, Except.bind, if_true, hsame]
  have hreturns := @tryFinalizeCommit_returns_iff env
    { cs with
      proposalBlock := cs.lockedBlock, proposalBlockParts := cs.lockedBlockParts,
      step := .commit, commitRound := commitRound } id true rfl hmaj hsame
  refine hreturns.2 fun _ => ⟨hparts, fun block hb => ?_⟩
  obtain rfl := Option.some_inj.1 (hblock.symm.trans hb)
  exact hbasic

/-- **Block hash and block.**  With Merkle hashing free of collisions, and parts that tell the two
blocks apart, the hash identifies the block exactly if the two blocks are one or differ in a field
that the hash covers. -/
theorem identifies_iff (hfree : env.libs.CollisionFree)
    (hparts : PartSet.header (some (env.makePartSet b₁)) =
      PartSet.header (some (env.makePartSet b₂)) → b₁ = b₂) :
    Identifies env b₁ b₂ ↔ (NCBlock.SameCovered b₁ b₂ → b₁ = b₂) := by
  constructor
  · intro h hcovered
    obtain ⟨hash, hne, h₁, h₂⟩ := (NCBlock.hash_eq_iff hfree).2 hcovered
    have hid : IdOf env b₂ ⟨hash, PartSet.header (some (env.makePartSet b₂))⟩ := ⟨h₂, rfl⟩
    have hheader := h.parts _ hid (NCBlock.hashesTo_of_hash hne h₁)
    exact hparts (beq_iff_eq.1 (Bool.and_eq_true_iff.1 hheader).2)
  · intro hone
    have hheader : ∀ id, IdOf env b₂ id →
        NCBlock.hashesTo env.libs (some b₁) id.hash = .ok true →
        PartSet.hasHeader (some (env.makePartSet b₁)) id.partsHeader = true := by
      intro id hid hsame
      obtain rfl := hone (hid.sameCovered hfree hsame)
      rw [PartSet.hasHeader, hid.header]
      simp
    refine ⟨fun h hne h₁ h₂ => ?_, hheader, ?_⟩
    · obtain rfl := hone ((NCBlock.hash_eq_iff hfree).1 ⟨h, hne, h₁, h₂⟩)
      exact ⟨rfl, rfl⟩
    · intro cs id commitRound hlocked hid hsame hmaj hbasic
      have hparts₁ := hheader id hid (hlocked.block ▸ hsame)
      exact enterCommit_locked hlocked.block hmaj hsame (hlocked.parts ▸ hparts₁) hbasic

end

/-! ## Two blocks with one extra data -/

namespace TwinEnv

open PlainLibs

/-- The fields of a block's map, with the sign of the time. -/
def mapFields (m : ExtraMap) : List Bytes := natsCode [(-m.time).toNat] :: extraFields m

theorem mapFields_injective : Function.Injective mapFields := by
  rintro ⟨c, height, time, save, broadcast, number, vals, epoch⟩
    ⟨c', height', time', save', broadcast', number', vals', epoch'⟩ h
  simp only [mapFields, extraFields, List.cons.injEq, natsCode_inj, textField_inj, and_true] at h
  obtain ⟨hneg, rfl, rfl, rfl, rfl, hpos, hsave, hbroadcast, rfl⟩ := h
  obtain rfl : time = time' := by omega
  obtain rfl : save = save' := by cases save <;> cases save' <;> simp_all
  obtain rfl : broadcast = broadcast' := by cases broadcast <;> cases broadcast' <;> simp_all
  rfl

/-- The libraries of the small network, with a hash of all covered fields. -/
def libs : Libs := { PlainEnv.libs with hashFromMap := fun m => fieldsCode (mapFields m) }

theorem libs_collisionFree : libs.CollisionFree where
  injective _ _ h := mapFields_injective (fieldsCode_injective h)
  nonempty m := by simp [libs, fieldsCode, mapFields, natCode]

/-- The block made at time `7` with this content. -/
def block (content : UInt8) : NCBlock :=
  { PlainEnv.block 7 with block := ⟨1, [content]⟩ }

/-- The node: a block is encoded by its content. -/
def env : Env :=
  { PlainEnv.env with
    libs := libs
    makePartSet := fun b => ⟨1, b.block.body, [some ⟨0, b.block.body, []⟩], [true], 1⟩
    fromBytes := fun bytes => match bytes with
      | [content] => some (block content)
      | _ => none }

/-- The hash of all these blocks. -/
def hash : Bytes := libs.hashFromMap (((block 0).ntcExtra.getD TendermintExtra.zero).covered)

/-- The `BlockID` of a vote for a block. -/
def blockID (content : UInt8) : BlockID := ⟨hash, 1, [content]⟩

/-- The aggregate of the first validator's vote for a block, which has the power of a majority. -/
def signAggr (type_ : ℕ) (content : UInt8) : SignAggr :=
  makeSignAggr 1 0 type_ 3 (blockID content) PlainEnv.chainID [true, false, false]
    (some (PlainLibs.sign [1] (libs.voteJSON PlainEnv.chainID ⟨blockID content, 1, 0, type_⟩)))

/-- The proposer sends this validator the first block, and the majority the second. -/
def inputs : List (ℤ × Event) :=
  [(1, .timeout ⟨1, 0, .newHeight⟩),
    (2, .msg (.proposal (some ((PlainEnv.privValidator 2).signProposal libs PlainEnv.chainID
      { height := 1
        round := 0
        hash := hash
        blockPartsHeader := (blockID 0).partsHeader
        polRound := -1
        polBlockID := BlockID.zero
        proposerPeerKey := "node"
        signature := [] }))) "p"),
    (3, .msg (.blockPart 1 0 (some ⟨0, [0], []⟩)) "p"),
    (4, .msg (.maj23SignAggr (some (signAggr voteTypePrevote 1))) "p"),
    (5, .msg (.maj23SignAggr (some (signAggr voteTypePrecommit 1))) "p")]

/-- The validator at the start of the height. -/
def start : Go ConsensusState :=
  ConsensusState.startNewHeight env PlainEnv.lastExtra PlainEnv.validators
    (some (PlainEnv.privValidator 3)) none

end TwinEnv

theorem identifies_iff_otherTime : TwinEnv.libs.CollisionFree ∧
    Identifies TwinEnv.env (TwinEnv.block 0) { PlainEnv.block 8 with block := ⟨1, [1]⟩ } :=
  ⟨TwinEnv.libs_collisionFree, (identifies_iff TwinEnv.libs_collisionFree fun h => by
    cases h).2 fun h => by
      obtain ⟨e₁, e₂, he₁, he₂, -, -, -, heq⟩ := h.exists_extra
      obtain rfl := Option.some_inj.1 he₁
      obtain rfl := Option.some_inj.1 he₂
      cases heq⟩

/-- **Two blocks with one hash.**  Their contents differ.  A validator that got the first and then
the votes of the majority for the second locks the first, and panics when the second is decided. -/
theorem one_hash_two_blocks :
    NCBlock.hash TwinEnv.libs (some (TwinEnv.block 0)) = .ok TwinEnv.hash ∧
    NCBlock.hash TwinEnv.libs (some (TwinEnv.block 1)) = .ok TwinEnv.hash ∧ TwinEnv.hash ≠ [] ∧
    (TwinEnv.block 0).block ≠ (TwinEnv.block 1).block ∧
    ∃ cs₀, Started TwinEnv.env cs₀ ∧
      (∃ cs, run TwinEnv.env cs₀ (TwinEnv.inputs.take 4) = .ok cs ∧
        LockedOn TwinEnv.env cs (TwinEnv.block 0)) ∧
      run TwinEnv.env cs₀ TwinEnv.inputs =
        .error (.sanity "Expected ProposalBlockParts header to be commit header") := by
  refine ⟨rfl, rfl, by decide, by decide, ?_⟩
  obtain ⟨cs₀, hstart, ⟨cs, hrun, hblock, hparts⟩, hfails⟩ : ∃ cs₀, TwinEnv.start = .ok cs₀ ∧
      (∃ cs, run TwinEnv.env cs₀ (TwinEnv.inputs.take 4) = .ok cs ∧
        cs.lockedBlock = some (TwinEnv.block 0) ∧
        cs.lockedBlockParts = some (TwinEnv.env.makePartSet (TwinEnv.block 0))) ∧
      run TwinEnv.env cs₀ TwinEnv.inputs =
        .error (.sanity "Expected ProposalBlockParts header to be commit header") := by
    decide +kernel
  exact ⟨cs₀, ⟨_, _, _, _, hstart⟩, ⟨cs, hrun, hblock, hparts⟩, hfails⟩

end Consensus
end LigoChain
