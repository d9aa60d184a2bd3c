/-
# Committed blocks on import

A block is checked twice by different code.  Before a validator prevotes it,
`defaultDoPrevote` (`consensus/state.go`) calls `ValidateBasic` (`types/block.go`) and,
unless it is the proposer, the chain reader's `ValidateBlock`
(`chain/core/blockchain.go`), which starts with `VerifyHeaderBeforeConsensus`
(`engine.go`) and `ValidateBody` (`chain/core/block_validator.go`).  Once the block is
committed, `finalizeCommit` fills in the commit and `Commit` seals the header with the
extra data (`writeCommittedSeals`, `engine.go`); every other node then runs
`verifyHeader` on it.

The checks before the vote do not read the fields `ValidatorsHash` and `EpochNumber` of
the extra data and do not compare its `Height` with the number of the header; the vote
aggregate that becomes the commit is stored without a look at its chain and with any
`Maj23` (`Consensus/SignAggrSound.lean`).  `committed_verifies_iff` says what has to be
right on top of the checks for a committed block to verify, and
`committed_block_rejected` is a block that the validators commit and every node rejects.
-/

import LigoChain.Engine.VerifyHeader
import LigoChain.Consensus.SignAggrSound
import LigoChain.Consensus.Frames

namespace LigoChain

open GoInt Steps

/-! ## The commit of an aggregate -/

namespace ValidatorSet

variable {valSet : ValidatorSet}

/-- What `blsVerifySignAggr` has computed when it returns `true`. -/
theorem blsVerifySignAggr_parts {L : Libs} {s : SignAggr}
    (h : valSet.blsVerifySignAggr L s = .ok true) :
    ∃ signature count votesSum totalVotes pk, s.signatureAggr = some signature ∧
      valSet.talliedVotingPower s.bitArray = .ok (count, votesSum, totalVotes) ∧
      loose23MajorThreshold totalVotes s.round ≤ votesSum ∧
      valSet.aggrPubKey L s.bitArray = some pk ∧
      L.verifyBytes pk
        (L.signBytes s.chainID ⟨s.blockID, s.height, toUint64 s.round, s.type_⟩) signature = true := by
  unfold blsVerifySignAggr at h
  split at h
  · simp at h
  next signature hsig =>
  split at h
  · simp at h
  next count votesSum totalVotes htally =>
  dsimp only at h
  split at h
  · simp at h
  next pk hpk =>
  split at h
  · simp at h
  next hver =>
  exact ⟨signature, count, votesSum, totalVotes, pk, hsig, htally,
    by simpa using Except.ok.inj h, hpk, by simpa using hver⟩

/-- **When the commit of a verified aggregate verifies:** for the height, the chain and the
block that were signed. -/
theorem verifyCommit_makeCommit_iff {L : Libs} (hinj : L.VoteJSONInjective) (hone : L.OneMessage)
    {s : SignAggr} (h : valSet.blsVerifySignAggr L s = .ok true)
    (htype : s.type_ = voteTypePrecommit) (chainID : String) (height : ℕ) :
    valSet.verifyCommit L chainID height (some s.makeCommit) = .ok (.ok ()) ↔
      height = s.height ∧ s.chainID = chainID ∧ s.maj23 = s.blockID := by
  obtain ⟨signature, count, votesSum, totalVotes, pk, hsig, htally, hquorum, hpk, hver⟩ :=
    blsVerifySignAggr_parts h
  obtain ⟨bits, hbits, hsize, -, -⟩ := valSet.talliedVotingPower_eq_ok htally
  rw [htype] at hver
  constructor
  · intro hcommit
    obtain ⟨c, bits', hc, hbits', hheight, hq⟩ := valSet.verifyCommit_eq_ok hcommit
    cases hc
    obtain rfl := Option.some.inj (hbits.symm.trans hbits')
    obtain ⟨pk', hagg, hver'⟩ := hq.verified
    rw [hbits] at hpk
    obtain rfl := Option.some.inj ((valSet.aggrPubKey_eq_some hpk).symm.trans hagg)
    simp only [SignAggr.makeCommit, hsig, Option.getD_some] at hver'
    obtain ⟨hchain, hvote⟩ := hinj (hone _ _ _ _ hver hver')
    exact ⟨hheight, hchain, (congrArg CanonicalJSONVote.blockID hvote).symm⟩
  · rintro ⟨rfl, rfl, hmaj⟩
    have hlen : valSet.size = bitArraySize s.bitArray := by simp [bitArraySize, hbits, hsize]
    simp [verifyCommit, SignAggr.makeCommit, hlen, hpk, hmaj, hsig, hver, htally, hquorum]

end ValidatorSet

namespace Engine

/-! ## The checks before the vote -/

/-- `VerifyHeaderBeforeConsensus`. -/
def verifyHeaderBeforeConsensus (nilUncleHash : Bytes) (header : Header) : Option HeaderError :=
  if header.number.isNone then some .errUnknownBlock
  else if header.nonce ≠ tendermintEmptyNonce ∧ header.nonce ≠ tendermintNonce then
    some .errInvalidNonce
  else if header.mixDigest ≠ tendermintDigest then some .errInvalidMixDigest
  else if header.uncleHash ≠ nilUncleHash then some .errInvalidUncleHash
  else if header.difficulty ≠ some tendermintDefaultDifficulty then some .errInvalidDifficulty
  else none

/-- The errors of `ValidateBlock`. -/
inductive BlockError
  | errBlacklistedHash
  | header (err : HeaderError)
  | errKnownBlock
  | uncleRootHashMismatch
  | transactionRootHashMismatch
  | errUnknownAncestor
  | errPrunedAncestor
  | execution
  deriving DecidableEq, Repr

/-- The block chain around `ValidateBlock`.  `executes` is the outcome of `state.New`,
`Process` and `ValidateState`. -/
structure Chain where
  backend : Backend
  header : LigoBlock → Header
  badHashes : Bytes → Bool
  hasBlock : Bytes → ℕ → Bool
  hasBlockAndState : Bytes → ℕ → Bool
  uncles : LigoBlock → List Header
  calcUncleHash : List Header → Bytes
  txRoot : LigoBlock → Bytes
  executes : LigoBlock → Bool

/-- `NumberU64`. -/
def Chain.numberU64 (chain : Chain) (block : LigoBlock) : ℕ :=
  uint64OfBig ((chain.header block).number.getD 0)

/-- `ValidateBody`. -/
def Chain.validateBody (chain : Chain) (block : LigoBlock) : Option BlockError :=
  let header := chain.header block
  let number := chain.numberU64 block
  if chain.hasBlockAndState (header.hash chain.backend) number then some .errKnownBlock
  else if !(chain.uncles block).isEmpty then some (.header .errInvalidUncleHash)
  else if chain.calcUncleHash (chain.uncles block) ≠ header.uncleHash then
    some .uncleRootHashMismatch
  else if chain.txRoot block ≠ header.txHash then some .transactionRootHashMismatch
  else
    let parentNumber := (number + (2 ^ 64 - 1)) % 2 ^ 64
    if !chain.hasBlockAndState header.parentHash parentNumber then
      if !chain.hasBlock header.parentHash parentNumber then some .errUnknownAncestor
      else some .errPrunedAncestor
    else none

/-- `ValidateBlock`. -/
def Chain.validateBlock (chain : Chain) (block : LigoBlock) : Option BlockError :=
  if chain.badHashes ((chain.header block).hash chain.backend) then some .errBlacklistedHash
  else match verifyHeaderBeforeConsensus chain.backend.nilUncleHash (chain.header block) with
    | some err => some (.header err)
    | none =>
      match chain.validateBody block with
      | some err => some err
      | none => if chain.executes block then none else some .execution

/-- A block that passes `ValidateBlock` passes `VerifyHeaderBeforeConsensus`. -/
theorem Chain.header_of_validateBlock {chain : Chain} {block : LigoBlock}
    (h : chain.validateBlock block = none) :
    verifyHeaderBeforeConsensus chain.backend.nilUncleHash (chain.header block) = none := by
  unfold Chain.validateBlock at h
  split at h
  · simp at h
  split at h
  · simp at h
  · assumption

/-! ## Sealing -/

/-- `writeCommittedSeals`: the extra data of the header becomes the encoded extra data of the
block. -/
def writeCommittedSeals (encode : TendermintExtra → Bytes) (header : Header)
    (extra : TendermintExtra) : Header :=
  { header with extra := encode extra }

/-- The extra data survives its encoding, except for the digits of its time that the encoding
cuts off. -/
def RoundTrips (L : Libs) (encode : TendermintExtra → Bytes) (extra : TendermintExtra) : Prop :=
  encode extra ≠ [] ∧ ∃ time, L.readExtra (encode extra) = some { extra with time := time }

/-! ## Import -/

/-- The node has the header's parent. -/
def HasParent (sb : Backend) (header : Header) (parents : List Header) : Prop :=
  ∀ number, header.number = some number → uint64OfBig number ≠ 0 →
    ∃ parent parentNumber,
      (if parents.isEmpty then sb.getHeader header.parentHash (uint64OfBig number - 1)
        else parents.getLast?) = some parent ∧
      parent.number = some parentNumber ∧
      uint64OfBig parentNumber = uint64OfBig number - 1 ∧ parent.hash sb = header.parentHash

/-- The node has the epoch of a height, and its current epoch has come that far. -/
structure HasEpoch (sb : Backend) (height : ℕ) (ep : Epoch) : Prop where
  found : ∃ epoch, sb.epoch = some epoch ∧ epoch.validators.isSome = true ∧
    getEpochByBlockNumber sb epoch height = some ep
  reached : sb.epochPolls.any (fun epoch => height ≤ epoch.endBlock) = true

/-- What a passed check of a header has checked before the commit. -/
theorem verifyHeader_eq_accepted {sb : Backend} {header : Header} {parents : List Header} :
    verifyHeader sb header parents = .accepted ↔
      ∃ number, header.number = some number ∧
        verifyHeaderBeforeConsensus sb.nilUncleHash header = none ∧
        (extractTendermintExtra sb.libs header).isSome = true ∧
        sb.epochPolls.any (fun ep => uint64OfBig number ≤ ep.endBlock) = true ∧
        verifyCascadingFields sb header number parents = .accepted ∧
        verifyMainChainNumber sb header = .accepted := by
  unfold verifyHeader
  cases hnumber : header.number with
  | none => simp
  | some number =>
    simp only [Option.some.injEq, exists_eq_left', verifyHeaderBeforeConsensus, hnumber,
      Option.isNone_some, Bool.false_eq_true, if_false]
    constructor
    · intro h
      split_ifs at h with h1 h2 h3 h4 h5 h6
      all_goals try simp at h
      split at h
      · next hcascade =>
        simp only [if_neg h2, if_neg h3, if_neg h4, if_neg h5, hcascade, true_and]
        exact ⟨by simpa [Option.isSome_iff_ne_none] using h1, by simpa using h6, h⟩
      · next hne => exact absurd h hne
    · rintro ⟨h1, h2, h3, h4, h5⟩
      split_ifs at h1 with h6 h7 h8 h9
      rw [if_neg (by simpa [Option.isSome_iff_ne_none] using h2), if_neg h6, if_neg h7, if_neg h8,
        if_neg h9, if_neg (by simpa using h3), h4]
      exact h5

/-- With the parent at hand, the cascading checks of a header of positive number are those of
its commit. -/
theorem verifyCascadingFields_eq {sb : Backend} {header : Header} {parents : List Header}
    {number : ℕ} (hparent : HasParent sb header parents) (hnumber : header.number = some number)
    (hpos : uint64OfBig number ≠ 0) :
    verifyCascadingFields sb header number parents = verifyCommittedSeals sb header number := by
  obtain ⟨parent, parentNumber, hfound, hnum, hprev, hhash⟩ := hparent number hnumber hpos
  unfold verifyCascadingFields
  simp only [if_neg hpos, hfound, hnum, hprev, hhash, ne_eq, not_true_eq_false, or_self, if_false]

end Engine

namespace Consensus

/-! ## The aggregates behind committed blocks -/

/-- `ResetTop2Round` adds no aggregate. -/
theorem HeightVoteSignAggr.precommits_of_resetTop2Round {hvs hvs' : HeightVoteSignAggr}
    {round r : ℤ} {s : SignAggr} (h : hvs.resetTop2Round round = .ok hvs')
    (hs : hvs'.precommits r = some s) : hvs.precommits r = some s := by
  unfold resetTop2Round at h
  split_ifs at h
  obtain ⟨below, hbelow, h⟩ := Steps.bind_eq_ok.1 h
  obtain ⟨top, htop, h⟩ := Steps.bind_eq_ok.1 h
  cases h
  have hadded : (_ : HeightVoteSignAggr).precommits r = some s :=
    (addRound_lookup (r := r) hbelow).2.symm.trans ((addRound_lookup (r := r) htop).2.symm.trans hs)
  unfold precommits at hadded
  rw [lookup_foldl_erase] at hadded
  split_ifs at hadded
  · simp at hadded
  · exact hadded

namespace ConsensusState

variable {env : Env} {cs cs' cs₀ : ConsensusState}

/-- The block was handed over as the commit of a precommit aggregate that the validator has
verified. -/
structure HandedOver (env : Env) (chainID : String) (height : ℕ) (validators : ValidatorSet)
    (block : NCBlock) (extra : TendermintExtra) (s : SignAggr) (block' : NCBlock) : Prop where
  ntcExtra : block.ntcExtra = some extra
  committed : block' = committedBlock env block extra s.makeCommit
  verified : Verified env.libs height validators s
  type_ : s.type_ = voteTypePrecommit
  chainID : extra.chainID = chainID
  height : extra.height = height
  hash : NCBlock.hashesTo env.libs (some block) s.maj23.hash = .ok true

/-- The block was handed over in the height that starts in this state. -/
def Handed (env : Env) (cs₀ : ConsensusState) (block' : NCBlock) : Prop :=
  ∃ block extra s, HandedOver env cs₀.ntcExtra.chainID cs₀.height cs₀.validators block extra s block'

/-- What a run keeps of the blocks it hands over.  The height and the validators do not change
while the height lasts. -/
structure CommitInv (env : Env) (cs₀ cs : ConsensusState) : Prop where
  height : cs.height = cs₀.height
  validators : cs.validators = cs₀.validators
  chainID : cs.ntcExtra.chainID = cs₀.ntcExtra.chainID
  extraHeight : cs.ntcExtra.height = cs₀.ntcExtra.height
  stored : ∀ r s, cs.voteSignAggr.precommits r = some s →
    Verified env.libs cs₀.height cs₀.validators s ∧ s.type_ = voteTypePrecommit
  commits : ∀ block', .commit block' ∈ cs.out → Handed env cs₀ block'

theorem CommitInv.handsOver (hstart : cs₀.height = (cs₀.ntcExtra.height + 1) % 2 ^ 64)
    (h : CommitInv env cs₀ cs) : HandsOver env (Handed env cs₀) cs := by
  intro r s block extra hs hextra hchain hheight hhash
  obtain ⟨hverified, htype⟩ := h.stored r s hs
  exact ⟨block, extra, s, hextra, rfl, hverified, htype, hchain.trans h.chainID,
    by rw [hheight, h.extraHeight, hstart], hhash⟩

theorem CommitInv.of_frame {P : ℤ → Prop} (h : CommitInv env cs₀ cs)
    (hf : Frame P (Handed env cs₀) cs cs') : CommitInv env cs₀ cs' where
  height := hf.height.trans h.height
  validators := hf.validators.trans h.validators
  chainID := hf.chainID.trans h.chainID
  extraHeight := hf.extraHeight.trans h.extraHeight
  stored := by
    rw [hf.voteSignAggr]
    exact h.stored
  commits block' hmem := by
    obtain ⟨new, hout, hnew⟩ := hf.out
    rw [hout] at hmem
    rcases List.mem_append.1 hmem with hmem | hmem
    · exact hnew _ hmem
    · exact h.commits block' hmem

/-- **One input keeps the invariant**, whatever the input. -/
theorem CommitInv.handle (hstart : cs₀.height = (cs₀.ntcExtra.height + 1) % 2 ^ 64)
    (h : CommitInv env cs₀ cs) {input : ℤ × Event} (hstep : cs.handle env input = .ok cs') :
    CommitInv env cs₀ cs' := by
  have hmeets : Meets (fun _ => True)
      (Follows (CommitInv env cs₀) (fun _ _ => True) (Handed env cs₀) cs)
      (cs.handle env input) := by
    refine handle_follows (fun _ _ => trivial) (fun _ => trivial) (h.handsOver hstart)
      (fun cs₁ h₁ => h₁.handsOver hstart) (fun _ _ _ => trivial) ?_ ?_ ?_ ?_
    · intro ti round _ _ _ _
      cases hopen : cs.openRound round with
      | error p => trivial
      | ok cs₁ =>
        unfold openRound at hopen
        obtain ⟨aggrs, haggrs, hopen⟩ := Steps.bind_eq_ok.1 hopen
        obtain ⟨votes, -, hopen⟩ := Steps.bind_eq_ok.1 hopen
        cases hopen
        have hsame : aggrs.precommits = cs.voteSignAggr.precommits := by
          funext r
          have hset := (HeightVoteSignAggr.setRound_lookup (r := r) haggrs).2
          split at hset <;> exact hset
        split <;>
          exact ⟨⟨h.height, h.validators, h.chainID, h.extraHeight, hsame ▸ h.stored, h.commits⟩, rfl⟩
    · intro x key i _ _ _
      cases hlow : lowerRound { cs with vrfValIndex := i } x.round with
      | error p => trivial
      | ok cs₁ =>
        unfold lowerRound at hlow
        obtain ⟨aggrs, haggrs, hlow⟩ := Steps.bind_eq_ok.1 hlow
        obtain ⟨votes, -, hlow⟩ := Steps.bind_eq_ok.1 hlow
        cases hlow
        exact ⟨⟨h.height, h.validators, h.chainID, h.extraHeight, fun r s hs =>
          h.stored r s (HeightVoteSignAggr.precommits_of_resetTop2Round haggrs hs), h.commits⟩, rfl⟩
    · intro s key _ hverified
      refine ⟨h.height, h.validators, h.chainID, h.extraHeight, fun r t ht => ?_, h.commits⟩
      rcases HeightVoteSignAggr.addSignAggr_precommits ht with hold | ⟨rfl, -, htype⟩
      · exact h.stored r t hold
      · exact ⟨h.height ▸ h.validators ▸ hverified, htype⟩
    · intro x key p f i _ _ _ _
      cases hadd : cs.votes.addVote env.libs x key with
      | error p => trivial
      | ok r => exact ⟨h.height, h.validators, h.chainID, h.extraHeight, h.stored, h.commits⟩
  obtain ⟨cs₁, rfl | h₁, hf⟩ := hmeets.of_eq_ok hstep
  · exact h.of_frame hf
  · exact h₁.of_frame hf

theorem Started.commitInv (h : Started env cs₀) : CommitInv env cs₀ cs₀ ∧
    cs₀.height = (cs₀.ntcExtra.height + 1) % 2 ^ 64 ∧ cs₀.height ≠ 0 := by
  obtain ⟨ntcExtra, validators, pv, fromMiner, h⟩ := h
  unfold startNewHeight at h
  obtain ⟨votes, hvotes, h⟩ := Steps.bind_eq_ok.1 h
  cases h
  exact ⟨⟨rfl, rfl, rfl, rfl, by simp, by simp⟩, rfl, (HeightVoteSet.new_eq_ok hvotes).1⟩

/-- **Where committed blocks come from**, in every run. -/
theorem run_commitInv (hstart : Started env cs₀) {inputs : List (ℤ × Event)}
    (hrun : run env cs₀ inputs = .ok cs) : CommitInv env cs₀ cs :=
  Steps.foldlM_invariant (fun _ _ _ h hstep => h.handle hstart.commitInv.2.1 hstep)
    hstart.commitInv.1 hrun

/-! ## The prevote -/

/-- `defaultDoPrevote` signs a vote for the block. -/
structure Prevotes (env : Env) (now : ℤ) (cs : ConsensusState) (block : NCBlock) : Prop where
  signs : ∃ cs' new vote, cs.doPrevote env now = .ok cs' ∧ cs'.out = new ++ cs.out ∧
    .signVote vote ∈ new ∧ vote.blockID.hash ≠ []
  block : (if cs.lockedBlock.isSome then cs.lockedBlock else cs.proposalBlock) = some block

/-- The validator votes without a look at the block: it is locked on it or has proposed it. -/
def VotesUnchecked (env : Env) (now : ℤ) (cs : ConsensusState) : Prop :=
  cs.lockedBlock.isSome = true ∨ ∃ cs', cs.isProposer env now = .ok (cs', true)

theorem signAddVote_nil {now : ℤ} {type_ : ℕ} {header : PartSetHeader} {cs₁ : ConsensusState}
    {new : List Effect} {vote : Vote} (hout₁ : cs₁.out = cs.out)
    (h : cs₁.signAddVote env now type_ [] header = .ok cs') (hout : cs'.out = new ++ cs.out)
    (hmem : .signVote vote ∈ new) : vote.blockID.hash = [] := by
  obtain ⟨new', p, f, i, hvoted, rfl⟩ := signAddVote_eq h
  rw [hout₁] at hout
  obtain rfl := List.append_cancel_right hout
  cases hvoted with
  | abstained => simp at hmem
  | signed v hv | toProposer v key hv | toSelf v hv =>
    simp only [List.mem_cons, Effect.signVote.injEq, reduceCtorEq, List.not_mem_nil, or_false,
      false_or] at hmem
    rw [hmem, hv.blockID]

/-- **What is behind a prevote for a block** of a validator that does look at it. -/
theorem Prevotes.validated {now : ℤ} {block : NCBlock} (h : Prevotes env now cs block)
    (hchecked : ¬ VotesUnchecked env now cs) : env.validateBlock now block.block = true := by
  obtain ⟨cs', new, vote, hvote, hout, hmem, hhash⟩ := h.signs
  have hfree : cs.lockedBlock.isSome = false := by
    by_contra hlocked
    exact hchecked (.inl (Bool.not_eq_false _ ▸ hlocked))
  have hblock := h.block
  rw [if_neg (by simp [hfree])] at hblock
  unfold doPrevote at hvote
  rw [if_neg (by simp [hfree])] at hvote
  simp only [hblock] at hvote
  obtain ⟨basic, -, hvote⟩ := Steps.bind_eq_ok.1 hvote
  split at hvote
  · exact absurd (signAddVote_nil rfl hvote hout hmem) hhash
  split at hvote
  · exact absurd (signAddVote_nil rfl hvote hout hmem) hhash
  obtain ⟨⟨cs₁, b⟩, hb, hvote⟩ := Steps.bind_eq_ok.1 hvote
  have hproposer : b = false := by
    by_contra hb'
    exact hchecked (.inr ⟨cs₁, by simpa [hb'] using hb⟩)
  obtain ⟨p, f, i, rfl⟩ := isProposer_eq hb
  subst hproposer
  dsimp only at hvote
  split at hvote
  · exact absurd (signAddVote_nil rfl hvote hout hmem) hhash
  next hvalid => simpa using hvalid

end ConsensusState
end Consensus

namespace Engine

open Consensus ConsensusState

/-- What the check of the commit comes to, once the extra data and the epoch are there and the
extra data has the hash of its commit. -/
theorem verifyCommittedSeals_eq_accepted {sb : Backend} {header : Header} {number : ℕ}
    {extra : TendermintExtra} {ep : Epoch} {valSet : ValidatorSet} {commit : Commit}
    (hextra : extractTendermintExtra sb.libs header = some extra)
    (hepoch : HasEpoch sb (uint64OfBig number) ep) (hvalSet : ep.validators = some valSet)
    (hcommit : extra.seenCommit = some commit)
    (hhash : extra.seenCommitHash = sb.libs.hashFromCommit commit) :
    verifyCommittedSeals sb header number = .accepted ↔
      extra.validatorsHash = valSet.hash sb.libs ∧
      valSet.verifyCommit sb.libs extra.chainID extra.height (some commit) = .ok (.ok ()) := by
  obtain ⟨epoch, hsb, hvalidators, hfound⟩ := hepoch.found
  simp only [verifyCommittedSeals, hextra, hsb, hfound, hvalSet, Option.bind_some, hcommit, hhash,
    Option.isNone_iff_eq_none, Option.isSome_iff_ne_none.1 hvalidators, if_false, ne_eq,
    not_true_eq_false]
  by_cases hvals : extra.validatorsHash = valSet.hash sb.libs
  · simp only [hvals, not_true_eq_false, if_false, true_and]
    split <;> simp_all
  · simp [hvals, Ne.symm hvals]

/-- A node that imports a block which a validator has prevoted and which was committed in the
height that starts in `cs₀`: the node has the libraries and constants of the network, the parent
of the block and the epoch of the height. -/
structure Import (env : Env) (cs₀ : ConsensusState) (block : NCBlock) (extra : TendermintExtra)
    where
  /-- The encoding of extra data. -/
  encode : TendermintExtra → Bytes
  /-- The validator that has prevoted the block, and its block chain. -/
  voterEnv : Env
  now : ℤ
  voter : ConsensusState
  chain : Chain
  /-- The node that imports it, and the headers that come with it. -/
  sb : Backend
  parents : List Header
  prevotes : Prevotes voterEnv now voter block
  validates : voterEnv.validateBlock now block.block = true → chain.validateBlock block.block = none
  libs : sb.libs = env.libs
  nilUncleHash : sb.nilUncleHash = chain.backend.nilUncleHash
  roundTrips : RoundTrips env.libs encode extra
  parent : HasParent sb (writeCommittedSeals encode (chain.header block.block) extra) parents
  epoch : HasEpoch sb cs₀.height
    ⟨env.epochNumber, env.epochStartBlock, env.epochEndBlock, some cs₀.validators⟩

namespace Import

variable {env : Env} {cs₀ : ConsensusState} {block : NCBlock} {extra : TendermintExtra}

/-- The sealed header. -/
def header (I : Import env cs₀ block extra) : Header :=
  writeCommittedSeals I.encode (I.chain.header block.block) extra

/-- The node accepts the sealed header, and its extra data is that of its height and epoch. -/
structure Verifies (I : Import env cs₀ block extra) : Prop where
  accepted : verifyHeader I.sb I.header I.parents = .accepted
  height : I.header.number = some extra.height
  epoch : ∃ epoch ep valSet, I.sb.epoch = some epoch ∧
    getEpochByBlockNumber I.sb epoch extra.height = some ep ∧ ep.validators = some valSet ∧
    extra.validatorsHash = valSet.hash I.sb.libs ∧ extra.epochNumber = ep.number

/-- What has to be right about the block and the aggregate `s` behind its commit, beyond what
the validators have checked. -/
structure Genuine (I : Import env cs₀ block extra) (s : SignAggr) : Prop where
  format : VotesUnchecked I.voterEnv I.now I.voter →
    verifyHeaderBeforeConsensus I.sb.nilUncleHash I.header = none
  height : I.header.number = some extra.height
  validatorsHash : extra.validatorsHash = cs₀.validators.hash env.libs
  epochNumber : extra.epochNumber = env.epochNumber
  chainID : s.chainID = extra.chainID
  maj23 : s.maj23 = s.blockID
  mainChain : verifyMainChainNumber I.sb I.header = .accepted

theorem Genuine.header_format {I : Import env cs₀ block extra} {s : SignAggr} (h : I.Genuine s) :
    verifyHeaderBeforeConsensus I.sb.nilUncleHash I.header = none := by
  by_cases hunchecked : VotesUnchecked I.voterEnv I.now I.voter
  · exact h.format hunchecked
  · have hvalid := Chain.header_of_validateBlock (I.validates (I.prevotes.validated hunchecked))
    rw [I.nilUncleHash]
    exact hvalid

/-- **Which commits verify on import.** -/
theorem verifies_iff (I : Import env cs₀ block extra) {s : SignAggr}
    (hinj : env.libs.VoteJSONInjective) (hone : env.libs.OneMessage)
    (hverified : Verified env.libs cs₀.height cs₀.validators s)
    (htype : s.type_ = voteTypePrecommit) (hheight : extra.height = cs₀.height)
    (hlt : cs₀.height < 2 ^ 64) (hpos : cs₀.height ≠ 0)
    (hcommit : extra.seenCommit = some s.makeCommit)
    (hhash : extra.seenCommitHash = env.libs.hashFromCommit s.makeCommit) :
    I.Verifies ↔ I.Genuine s := by
  have hnumber : uint64OfBig extra.height = cs₀.height := by
    rw [hheight, uint64OfBig, Nat.mod_eq_of_lt hlt]
  obtain ⟨hne, time, hread⟩ := I.roundTrips
  have hextract : extractTendermintExtra I.sb.libs I.header = some { extra with time := time } := by
    have hempty : I.header.extra.isEmpty = false := by simpa [header, writeCommittedSeals] using hne
    rw [extractTendermintExtra, hempty, I.libs]
    exact hread
  -- the checks of the commit, for a header of this height
  have hseals : I.header.number = some extra.height →
      (verifyCascadingFields I.sb I.header extra.height I.parents = .accepted ↔
        extra.validatorsHash = cs₀.validators.hash env.libs ∧
          s.chainID = extra.chainID ∧ s.maj23 = s.blockID) := by
    intro hnum
    have hparent : HasParent I.sb I.header I.parents := I.parent
    rw [verifyCascadingFields_eq hparent hnum (by rw [hnumber]; exact hpos),
      verifyCommittedSeals_eq_accepted hextract (by rw [hnumber]; exact I.epoch) rfl hcommit
        (by rw [I.libs]; exact hhash), I.libs,
      ValidatorSet.verifyCommit_makeCommit_iff hinj hone hverified.verified htype]
    simp only [hheight, hverified.height, true_and]
  constructor
  · intro h
    obtain ⟨number, hnum, hformat, -, -, hcascade, hmain⟩ := verifyHeader_eq_accepted.1 h.accepted
    obtain rfl := Option.some.inj (h.height.symm.trans hnum)
    obtain ⟨hvals, hchain, hmaj⟩ := (hseals h.height).1 hcascade
    obtain ⟨epoch, ep, valSet, hsb, hep, -, -, hepochNumber⟩ := h.epoch
    obtain ⟨epoch', hsb', -, hep'⟩ := I.epoch.found
    obtain rfl := Option.some.inj (hsb.symm.trans hsb')
    rw [hheight, hep'] at hep
    cases hep
    exact ⟨fun _ => hformat, h.height, hvals, hepochNumber, hchain, hmaj, hmain⟩
  · intro h
    obtain ⟨epoch, hsb, -, hep⟩ := I.epoch.found
    refine ⟨verifyHeader_eq_accepted.2 ⟨extra.height, h.height, h.header_format, ?_, ?_, ?_,
      h.mainChain⟩, h.height, epoch, _, cs₀.validators, hsb, hheight ▸ hep, rfl, ?_, ?_⟩
    · rw [hextract]
      rfl
    · rw [hnumber]
      exact I.epoch.reached
    · exact (hseals h.height).2 ⟨h.validatorsHash, h.chainID, h.maj23⟩
    · rw [I.libs]
      exact h.validatorsHash
    · exact h.epochNumber

end Import

/-- **When a committed block verifies.**  In every run of a height, a block that is handed to
the backend comes from a block `block` and a verified precommit aggregate `s`; and on every node
that has the parent and the epoch, the sealed header of a block that a validator has prevoted
passes `verifyHeader` with the height, the validators and the epoch number of its epoch exactly
if it is genuine. -/
theorem committed_verifies_iff {env : Env} (hinj : env.libs.VoteJSONInjective)
    (hone : env.libs.OneMessage) {cs₀ cs : ConsensusState} (hstart : Started env cs₀)
    {inputs : List (ℤ × Event)} (hrun : run env cs₀ inputs = .ok cs) {block' : NCBlock}
    (hcommit : .commit block' ∈ cs.out) :
    Handed env cs₀ block' ∧
      ∀ block extra s,
        HandedOver env cs₀.ntcExtra.chainID cs₀.height cs₀.validators block extra s block' →
        ∀ extra', block'.ntcExtra = some extra' → ∀ I : Import env cs₀ block extra',
          (I.Verifies ↔ I.Genuine s) := by
  obtain ⟨-, hheight, hpos⟩ := hstart.commitInv
  refine ⟨(run_commitInv hstart hrun).commits block' hcommit, ?_⟩
  intro block extra s hover extra' hextra' I
  have hlt : cs₀.height < 2 ^ 64 := hheight ▸ Nat.mod_lt _ (by norm_num)
  rw [hover.committed] at hextra'
  cases hextra'
  exact I.verifies_iff hinj hone hover.verified hover.type_ hover.height hlt hpos rfl rfl

/-! ## A block that is committed and rejected

The block of the small network, with whatever validators' hash its proposer puts into it.  The
first validator, which has the power of a majority, prevotes it, precommits it and commits it. -/

namespace PlainImport

/-- The extra data of the proposed block. -/
def extra (validatorsHash : Bytes) : TendermintExtra :=
  { TendermintExtra.zero with
    chainID := PlainEnv.chainID
    height := 1
    time := 7
    validatorsHash := validatorsHash
    seenCommit := some ⟨BlockID.zero, 0, 0, none, none⟩ }

/-- The proposed block. -/
def block (validatorsHash : Bytes) : NCBlock := ⟨⟨1, []⟩, some (extra validatorsHash), []⟩

/-- The aggregate of the precommits. -/
def precommits : SignAggr := PlainEnv.signAggr 0 voteTypePrecommit 7

/-- The extra data of the committed block. -/
def sealedExtra (validatorsHash : Bytes) : TendermintExtra :=
  { extra validatorsHash with
    seenCommit := some precommits.makeCommit
    seenCommitHash := PlainEnv.libs.hashFromCommit precommits.makeCommit }

/-- The committed block. -/
def committed (validatorsHash : Bytes) : NCBlock :=
  { block validatorsHash with ntcExtra := some (sealedExtra validatorsHash) }

/-- The network, with an encoding of the two blocks. -/
def env (validatorsHash : Bytes) : Env :=
  { PlainEnv.env with
    libs := { PlainEnv.libs with readExtra := fun _ => some (sealedExtra validatorsHash) }
    fromBytes := fun _ => some (block validatorsHash) }

/-- The first validator at the start of the height. -/
def start (validatorsHash : Bytes) : Go ConsensusState :=
  startNewHeight (env validatorsHash) PlainEnv.lastExtra PlainEnv.validators
    (some (PlainEnv.privValidator 1)) none

/-- The proposal and its block arrive. -/
def proposed : List (ℤ × Event) :=
  [(1, .timeout ⟨1, 0, .newHeight⟩), (2, .msg (PlainEnv.proposal 2 0 7) "p"),
    (3, .msg (PlainEnv.blockPart 0 7) "p")]

/-- Then the two aggregates. -/
def decided : List (ℤ × Event) :=
  [(4, .msg (.maj23SignAggr (some (PlainEnv.signAggr 0 voteTypePrevote 7))) "p"),
    (5, .msg (.maj23SignAggr (some precommits)) "p")]

/-- The header before this height. -/
def parent : Header := { parentHeader with number := some 0 }

/-- A node of the network. -/
def node (validatorsHash : Bytes) : Backend :=
  { soleBackend with
    libs := (env validatorsHash).libs
    ligoChainId := PlainEnv.chainID
    isMainChain := false
    epoch := some ⟨0, 0, 100, some PlainEnv.validators⟩
    epochPolls := [⟨0, 0, 100, some PlainEnv.validators⟩] }

/-- The block chain of a validator. -/
def chain (validatorsHash : Bytes) : Chain where
  backend := node validatorsHash
  header _ := { parentHeader with
    number := some 1
    parentHash := parent.hash (node validatorsHash)
    mainChainNumber := some 0 }
  badHashes _ := false
  hasBlock _ number := number == 0
  hasBlockAndState _ number := number == 0
  uncles _ := []
  calcUncleHash _ := []
  txRoot _ := []
  executes _ := true

/-- A prevote for a block is among the newest effects. -/
def votedSince (old new : List Effect) : Bool :=
  decide (new = new.take 2 ++ old) && (new.take 2).any fun x => match x with
    | .signVote vote => !vote.blockID.hash.isEmpty
    | _ => false

/-- The run, with what the theorems need to know of it. -/
abbrev Runs (vh : Bytes) : Prop :=
  ∃ cs₀, start vh = .ok cs₀ ∧ cs₀.height = 1 ∧ cs₀.validators = PlainEnv.validators ∧
    cs₀.ntcExtra.chainID = PlainEnv.chainID ∧ ∃ voter, run (env vh) cs₀ proposed = .ok voter ∧
      voter.lockedBlock = none ∧ voter.proposalBlock = some (block vh) ∧
      (∃ r, voter.isProposer (env vh) 3 = .ok r ∧ r.2 = false) ∧
      (∃ cs, voter.doPrevote (env vh) 3 = .ok cs ∧ votedSince voter.out cs.out = true) ∧
      ∃ cs, run (env vh) voter decided = .ok cs ∧ .commit (committed vh) ∈ cs.out

theorem hash_validators : PlainEnv.validators.hash PlainEnv.libs = [1, 2, 3] := rfl

theorem runs_known : Runs [1, 2, 3] := by decide +kernel

theorem runs_unknown : Runs [9] := by decide +kernel

theorem runs_spec {vh : Bytes} (h : Runs vh) :
    ∃ cs₀ voter cs, start vh = .ok cs₀ ∧ cs₀.height = 1 ∧ cs₀.validators = PlainEnv.validators ∧
      cs₀.ntcExtra.chainID = PlainEnv.chainID ∧ run (env vh) cs₀ proposed = .ok voter ∧
      run (env vh) cs₀ (proposed ++ decided) = .ok cs ∧ Prevotes (env vh) 3 voter (block vh) ∧
      ¬ VotesUnchecked (env vh) 3 voter ∧ .commit (committed vh) ∈ cs.out := by
  obtain ⟨cs₀, hstart, hheight, hvalidators, hchain, voter, hproposed, hfree, hproposal,
    ⟨r, hr, hr2⟩, ⟨cs', hprevote, hvoted⟩, cs, hrun, hcommit⟩ := h
  obtain ⟨hout, hany⟩ := Bool.and_eq_true_iff.1 hvoted
  obtain ⟨x, hmem, hx⟩ := List.any_eq_true.1 hany
  refine ⟨cs₀, voter, cs, hstart, hheight, hvalidators, hchain, hproposed,
    Steps.foldlM_append_eq_ok.2 ⟨voter, hproposed, hrun⟩, ⟨?_, ?_⟩, ?_, hcommit⟩
  · split at hx
    next vote => exact ⟨cs', _, vote, hprevote, of_decide_eq_true hout, hmem, by simpa using hx⟩
    next => simp at hx
  · simp [hfree, hproposal]
  · rintro (hlocked | ⟨cs₁, hcs₁⟩)
    · simp [hfree] at hlocked
    · simp [Except.ok.inj (hr.symm.trans hcs₁)] at hr2

/-- The sealed header. -/
def sealedHeader (validatorsHash : Bytes) : Header :=
  writeCommittedSeals (fun _ => [7]) ((chain validatorsHash).header ⟨1, []⟩)
    (sealedExtra validatorsHash)

/-- A node that imports the committed block. -/
def ofRun {vh : Bytes} {cs₀ voter : ConsensusState} (hheight : cs₀.height = 1)
    (hvalidators : cs₀.validators = PlainEnv.validators)
    (hprevotes : Prevotes (env vh) 3 voter (block vh)) :
    Import (env vh) cs₀ (block vh) (sealedExtra vh) where
  encode _ := [7]
  voterEnv := env vh
  now := 3
  voter := voter
  chain := chain vh
  sb := node vh
  parents := [parent]
  prevotes := hprevotes
  validates _ := by
    simp [Chain.validateBlock, Chain.validateBody, Chain.numberU64, verifyHeaderBeforeConsensus,
      chain, node, soleBackend, parentHeader, tendermintDefaultDifficulty, uint64OfBig]
  libs := rfl
  nilUncleHash := rfl
  roundTrips := ⟨by simp, 7, rfl⟩
  parent number hnumber _ := by
    cases hnumber
    exact ⟨parent, 0, rfl, rfl, rfl, rfl⟩
  epoch := by
    rw [hheight, hvalidators]
    exact ⟨⟨_, rfl, rfl, rfl⟩, rfl⟩

/-- The committed block comes from the proposed one and the aggregate of the precommits. -/
theorem handedOver {vh : Bytes} (hne : vh ≠ []) :
    HandedOver (env vh) PlainEnv.chainID 1 PlainEnv.validators (block vh) (extra vh) precommits
      (committed vh) where
  ntcExtra := rfl
  committed := by simp [committedBlock, committed, sealedExtra, block, env, isMainOrTestnet,
    extra, PlainEnv.chainID, PlainEnv.env, TendermintExtra.zero]
  verified := ⟨rfl, show PlainEnv.validators.blsVerifySignAggr PlainEnv.libs precommits = .ok true by
    decide +kernel, rfl⟩
  type_ := rfl
  chainID := rfl
  height := rfl
  hash := by
    simp [NCBlock.hashesTo, NCBlock.hash, TendermintExtra.hash, block, extra, hne, env,
      PlainEnv.libs, precommits, PlainEnv.signAggr, makeSignAggr, PlainEnv.blockID, Functor.map,
      Except.map]

end PlainImport

open PlainImport

/-- The equivalence at a block with the hash of the validators, which verifies. -/
theorem committed_verifies_iff_known : ∃ cs₀ cs vh, Started (env vh) cs₀ ∧
    run (env vh) cs₀ (proposed ++ decided) = .ok cs ∧ .commit (committed vh) ∈ cs.out ∧
    ∃ I : Import (env vh) cs₀ (block vh) (sealedExtra vh), I.Genuine precommits ∧ I.Verifies := by
  obtain ⟨cs₀, voter, cs, hstart, hheight, hvalidators, hchain, -, hrun, hprevotes, -, hcommit⟩ :=
    runs_spec runs_known
  have hover := @handedOver [1, 2, 3] (by simp)
  rw [← hheight, ← hvalidators, ← hchain] at hover
  have hformat : verifyHeaderBeforeConsensus [] (sealedHeader [1, 2, 3]) = none := by decide +kernel
  have hmain : verifyMainChainNumber (node [1, 2, 3]) (sealedHeader [1, 2, 3]) = .accepted := by
    decide +kernel
  have hgenuine : (ofRun hheight hvalidators hprevotes).Genuine precommits :=
    ⟨fun _ => hformat, rfl, by rw [hvalidators]; exact hash_validators.symm, rfl, rfl, rfl, hmain⟩
  have hstarted : Started (env [1, 2, 3]) cs₀ := ⟨_, _, _, _, hstart⟩
  exact ⟨cs₀, cs, _, hstarted, hrun, hcommit, ofRun hheight hvalidators hprevotes, hgenuine,
    ((committed_verifies_iff plainLibs_voteJSONInjective plainLibs_oneMessage hstarted hrun
      hcommit).2 _ _ _ hover _ rfl _).2 hgenuine⟩

/-- **A block that everybody rejects is committed.**  Its proposer put another hash than that of
the validators into its extra data. -/
theorem committed_block_rejected : ∃ cs₀ voter cs vh, Started (env vh) cs₀ ∧
    run (env vh) cs₀ proposed = .ok voter ∧ Prevotes (env vh) 3 voter (block vh) ∧
    ¬ VotesUnchecked (env vh) 3 voter ∧
    run (env vh) cs₀ (proposed ++ decided) = .ok cs ∧ .commit (committed vh) ∈ cs.out ∧
    ∃ I : Import (env vh) cs₀ (block vh) (sealedExtra vh),
      verifyHeader I.sb I.header I.parents = .returns (some .errInconsistentValidatorSet) ∧
      ¬ I.Verifies := by
  obtain ⟨cs₀, voter, cs, hstart, hheight, hvalidators, -, hvoter, hrun, hprevotes, hchecked,
    hcommit⟩ := runs_spec runs_unknown
  have hrejected : verifyHeader (node [9]) (sealedHeader [9]) [parent] =
      .returns (some .errInconsistentValidatorSet) := by decide +kernel
  refine ⟨cs₀, voter, cs, [9], ⟨_, _, _, _, hstart⟩, hvoter, hprevotes, hchecked, hrun, hcommit,
    ofRun hheight hvalidators hprevotes, hrejected, fun h => ?_⟩
  have haccepted : verifyHeader (node [9]) (sealedHeader [9]) [parent] = .accepted := h.accepted
  rw [haccepted] at hrejected
  simp at hrejected

end Engine
end LigoChain
