/-
# What a handler can do to the protocol state

`View` is the part of a `ConsensusState` that the safety of the protocol depends
on; the caches for the proposer, the block from the miner and the like are left
out.  A `Move` is one atomic change of it.  Every handler of
`chain/consensus/tendermint/consensus/state.go` is a sequence of moves
(`Consensus/HandlerMoves.lean`), so what is proved of each move holds of every run.

A move that signs a vote also carries the change of step that ends the handler, so
that no move leaves a vote signed in a step in which it can be signed again.  The
input under way is a parameter: an aggregate can be stored, and a vote counted,
only if it is the message being handled, and a round is entered only by a timeout.

The moves are those of a validator that never goes back to a lower round;
`enterLowerRound` is none of them.
-/

import LigoChain.Consensus.Runs

namespace LigoChain

namespace Consensus

open GoInt

variable {v v' : View}

/-- The protocol state of a validator. -/
structure View where
  height : ℕ
  round : ℤ
  step : RoundStepType
  validators : ValidatorSet
  address : Option Bytes
  proposal : Option Proposal
  proposalBlock : Option NCBlock
  proposalBlockParts : Option PartSet
  lockedRound : ℤ
  lockedBlock : Option NCBlock
  lockedBlockParts : Option PartSet
  votes : HeightVoteSet
  voteSignAggr : HeightVoteSignAggr
  commitRound : ℤ
  prevoteMaj23SignAggr : Option SignAggr
  precommitMaj23SignAggr : Option SignAggr
  out : List Effect

/-- The protocol state in a `ConsensusState`. -/
def ConsensusState.view (cs : ConsensusState) : View where
  height := cs.height
  round := cs.round
  step := cs.step
  validators := cs.validators
  address := cs.privValidator.map PrivValidator.address
  proposal := cs.proposal
  proposalBlock := cs.proposalBlock
  proposalBlockParts := cs.proposalBlockParts
  lockedRound := cs.lockedRound
  lockedBlock := cs.lockedBlock
  lockedBlockParts := cs.lockedBlockParts
  votes := cs.votes
  voteSignAggr := cs.voteSignAggr
  commitRound := cs.commitRound
  prevoteMaj23SignAggr := cs.prevoteMaj23SignAggr
  precommitMaj23SignAggr := cs.precommitMaj23SignAggr
  out := cs.out

/-- An effect that carries no vote, no aggregate, no signature and no timeout. -/
def Effect.benign : Effect → Bool
  | .internal (.proposal _) => true
  | .internal (.blockPart _ _ _) => true
  | .gossip (.proposal _) => true
  | .gossip (.blockPart _ _ _) => true
  | .saveBlockToMainChain _ => true
  | .broadcastTX3ProofData _ => true
  | .commit _ => true
  | _ => false

/-- The vote that a validator signs in a state. -/
structure IsVote (v : View) (type_ : ℕ) (blockID : BlockID) (vote : Vote) : Prop where
  address : v.address = some vote.validatorAddress
  hasAddress : v.validators.hasAddress vote.validatorAddress = true
  index : vote.validatorIndex = (v.validators.getByAddress vote.validatorAddress).1
  height : vote.height = v.height
  round : vote.round = toUint64 v.round
  type_ : vote.type_ = type_
  blockID : vote.blockID = blockID

/-- The effects of `signAddVote`: none from a node that is not a validator, else a vote,
which goes to the proposer if its peer is known. -/
inductive Voted (v : View) (type_ : ℕ) (blockID : BlockID) : List Effect → Prop
  | abstained : Voted v type_ blockID []
  | signed (vote : Vote) (h : IsVote v type_ blockID vote) :
      Voted v type_ blockID [.signVote vote]
  | toProposer (vote : Vote) (peerKey : String) (h : IsVote v type_ blockID vote) :
      Voted v type_ blockID [.vote2Proposer vote peerKey, .signVote vote]
  | toSelf (vote : Vote) (h : IsVote v type_ blockID vote) :
      Voted v type_ blockID [.internal (.vote (some vote)), .signVote vote]

theorem IsVote.of_same {type_ : ℕ} {blockID : BlockID} {vote : Vote}
    (h : IsVote v type_ blockID vote) (haddress : v'.address = v.address)
    (hvalidators : v'.validators = v.validators) (hheight : v'.height = v.height)
    (hround : v'.round = v.round) : IsVote v' type_ blockID vote :=
  ⟨haddress.trans h.address, hvalidators ▸ h.hasAddress, hvalidators ▸ h.index,
    h.height.trans hheight.symm, hround ▸ h.round, h.type_, h.blockID⟩

theorem Voted.of_same {type_ : ℕ} {blockID : BlockID} {new : List Effect}
    (h : Voted v type_ blockID new) (haddress : v'.address = v.address)
    (hvalidators : v'.validators = v.validators) (hheight : v'.height = v.height)
    (hround : v'.round = v.round) : Voted v' type_ blockID new := by
  cases h with
  | abstained => exact .abstained
  | signed vote h => exact .signed vote (h.of_same haddress hvalidators hheight hround)
  | toProposer vote key h =>
    exact .toProposer vote key (h.of_same haddress hvalidators hheight hround)
  | toSelf vote h => exact .toSelf vote (h.of_same haddress hvalidators hheight hround)

/-- The effects of `decideProposal`. -/
inductive Proposed (v : View) : List Effect → Prop
  | nothing : Proposed v []
  | signed (proposal : Proposal) (sent : List Effect) (hsent : ∀ e ∈ sent, e.benign = true)
      (hheight : proposal.height = v.height) (hround : proposal.round = v.round) :
      Proposed v (sent ++ [.signProposal proposal])

/-- A prevote of a locked validator is for the block it is locked on. -/
def PrevoteKeepsLock (L : Libs) (v : View) (blockID : BlockID) : Prop :=
  v.lockedBlock.isSome → NCBlock.hash L v.lockedBlock = .ok blockID.hash

/-- The aggregate passed the checks of `setMaj23SignAggr`. -/
structure Verified (L : Libs) (height : ℕ) (validators : ValidatorSet) (s : SignAggr) : Prop where
  height : s.height = height
  verified : validators.blsVerifySignAggr L s = .ok true
  type_ : isVoteTypeValid s.type_ = true

/-- There is a prevote aggregate of the current round for some block. -/
def HasPolka (v : View) (s : SignAggr) : Prop :=
  v.voteSignAggr.prevotes v.round = some s ∧ s.maj23.isZero = false

/-- Two blocks that differ at most in what `finalizeCommit` writes into a block. -/
def SameBlock (b b' : NCBlock) : Prop :=
  b'.block = b.block ∧ b'.tx3ProofData = b.tx3ProofData ∧
    b'.ntcExtra.map (fun e => (e.chainID, e.height, e.time, e.epochNumber, e.validatorsHash,
      e.epochBytes)) =
    b.ntcExtra.map fun e => (e.chainID, e.height, e.time, e.epochNumber, e.validatorsHash,
      e.epochBytes)

theorem SameBlock.refl (b : NCBlock) : SameBlock b b := ⟨rfl, rfl, rfl⟩

theorem SameBlock.trans {a b c : NCBlock} (h : SameBlock a b) (h' : SameBlock b c) :
    SameBlock a c :=
  ⟨h'.1.trans h.1, h'.2.1.trans h.2.1, h'.2.2.trans h.2.2⟩

/-- The aggregate that `sendMaj23SignAggr` makes of the votes of the current round. -/
structure Formed (v : View) (s : SignAggr) : Prop where
  height : s.height = v.height
  round : s.round = v.round
  blockID : s.maj23 = s.blockID
  chainID : s.chainID = v.votes.chainID
  votes : ∃ voteSet, ((s.type_ = voteTypePrevote ∧ v.votes.prevotes v.round = some voteSet) ∨
      (s.type_ = voteTypePrecommit ∧ v.votes.precommits v.round = some voteSet)) ∧
    s.bitArray = some (ConsensusState.collectVotes v.validators.size s.blockID voteSet.votes).1

/-- The input is an aggregate of prevotes. -/
def Event.IsPrevoteAggr (e : Event) : Prop :=
  ∃ s peerKey, e = .msg (.maj23SignAggr (some s)) peerKey ∧ s.type_ = voteTypePrevote

/-- One atomic change of the protocol state, while the input `e` is handled. -/
inductive Move (L : Libs) (e : Event) : View → View → Prop
  | emit (v : View) (effect : Effect) (h : effect.benign = true) :
      Move L e v { v with out := effect :: v.out }
  | schedule (v : View) (step : RoundStepType) :
      Move L e v { v with out := .schedule ⟨v.height, v.round, step⟩ :: v.out }
  | gossipAggr (v : View) (r : ℤ) (s : SignAggr)
      (h : v.voteSignAggr.prevotes r = some s ∨ v.voteSignAggr.precommits r = some s) :
      Move L e v { v with out := .gossip (.maj23SignAggr (some s)) :: v.out }
  | countVote (v : View) (vote : Vote) (peerKey : String) (votes : HeightVoteSet) (added : Bool)
      (err : Option HeightVoteSet.AddVoteError) (he : e = .msg (.vote (some vote)) peerKey)
      (h : v.votes.addVote L vote peerKey = .ok (votes, added, err)) :
      Move L e v { v with votes := votes }
  | sendAggr (v : View) (s : SignAggr) (h : Formed v s) :
      Move L e v { v with out := .internal (.maj23SignAggr (some s)) :: .signAggr s :: v.out }
  | startRound (v : View) (aggrs : HeightVoteSignAggr) (votes : HeightVoteSet)
      (he : ∃ ti, e = .timeout ti) (hstep : v.step = .newHeight)
      (haggrs : ∃ r, v.voteSignAggr.setRound r = .ok aggrs)
      (hvotes : ∃ r, v.votes.setRound r = .ok votes) :
      Move L e v { v with step := .newRound, voteSignAggr := aggrs, votes := votes }
  | enterRound (v : View) (round : ℤ) (aggrs : HeightVoteSignAggr) (votes : HeightVoteSet)
      (he : ∃ ti, e = .timeout ti) (hround : v.round < round) (hint : IsInt round)
      (hstep : v.step.val ≤ RoundStepType.precommitWait.val)
      (haggrs : ∃ r, v.voteSignAggr.setRound r = .ok aggrs)
      (hvotes : ∃ r, v.votes.setRound r = .ok votes) :
      Move L e v
        { v with
          round := round
          step := .newRound
          proposal := none
          proposalBlock := none
          proposalBlockParts := none
          prevoteMaj23SignAggr := none
          precommitMaj23SignAggr := none
          voteSignAggr := aggrs
          votes := votes }
  | propose (v : View) (new : List Effect) (hstep : v.step.val < RoundStepType.propose.val)
      (h : Proposed v new) : Move L e v { v with step := .propose, out := new ++ v.out }
  | acceptProposal (v : View) (proposal : Proposal) (parts : PartSet)
      (hnone : v.proposal = none) :
      Move L e v { v with proposal := some proposal, proposalBlockParts := some parts }
  | addPart (v : View) (parts parts' : PartSet) (hparts : v.proposalBlockParts = some parts)
      (hcount : parts'.count = parts.count + 1) (htotal : parts'.total = parts.total)
      (hopen : parts'.count ≠ parts'.total) :
      Move L e v { v with proposalBlockParts := some parts' }
  | completeBlock (v : View) (parts parts' : PartSet) (block : Option NCBlock)
      (hparts : v.proposalBlockParts = some parts) (hfull : parts'.count = parts'.total) :
      Move L e v { v with proposalBlockParts := some parts', proposalBlock := block }
  | prevote (v : View) (blockID : BlockID) (new : List Effect)
      (hstep : v.step.val ≤ RoundStepType.propose.val) (hproposal : v.proposal.isSome = true)
      (hblock : v.proposalBlock.isSome = true) (hvoted : Voted v voteTypePrevote blockID new)
      (hlock : PrevoteKeepsLock L v blockID) :
      Move L e v
        { v with
          step := .prevoteWait
          out := .schedule ⟨v.height, v.round, .prevoteWait⟩ :: (new ++ v.out) }
  | completeAndPrevote (v : View) (parts parts' : PartSet) (block : NCBlock) (blockID : BlockID)
      (new timeouts : List Effect) (hparts : v.proposalBlockParts = some parts)
      (hcount : parts'.count = parts.count + 1) (htotal : parts'.total = parts.total)
      (hfull : parts'.count = parts'.total) (hproposal : v.proposal.isSome = true)
      (hstep : v.step.val ≤ RoundStepType.prevoteWait.val)
      (hvoted : Voted v voteTypePrevote blockID new) (hlock : PrevoteKeepsLock L v blockID)
      (htimeouts : ∀ t ∈ timeouts, t = .schedule ⟨v.height, v.round, .prevoteWait⟩) :
      Move L e v
        { v with
          step := .prevoteWait
          proposalBlockParts := some parts'
          proposalBlock := some block
          out := timeouts ++ (new ++ v.out) }
  | prevoteWait (v : View) (hstep : v.step.val < RoundStepType.prevoteWait.val) :
      Move L e v
        { v with
          step := .prevoteWait
          out := .schedule ⟨v.height, v.round, .prevoteWait⟩ :: v.out }
  | storeAggr (v : View) (s : SignAggr) (peerKey : String)
      (he : e = .msg (.maj23SignAggr (some s)) peerKey) (h : Verified L v.height v.validators s) :
      Move L e v { v with voteSignAggr := v.voteSignAggr.addSignAggr s }
  | recordPrevotes (v : View) (s : SignAggr) (peerKey : String)
      (he : e = .msg (.maj23SignAggr (some s)) peerKey) (h : Verified L v.height v.validators s)
      (hround : s.round = v.round) (htype : s.type_ = voteTypePrevote) :
      Move L e v { v with prevoteMaj23SignAggr := some s }
  | unlockByPrevotes (v : View) (s : SignAggr) (peerKey : String)
      (he : e = .msg (.maj23SignAggr (some s)) peerKey) (h : Verified L v.height v.validators s)
      (hround : s.round = v.round) (htype : s.type_ = voteTypePrevote)
      (hlocked : v.lockedRound < s.round)
      (hother : NCBlock.hashesTo L v.lockedBlock s.maj23.hash = .ok false) :
      Move L e v
        { v with
          prevoteMaj23SignAggr := some s
          lockedRound := -1
          lockedBlock := none
          lockedBlockParts := none }
  | recordPrecommits (v : View) (s : SignAggr) (peerKey : String)
      (he : e = .msg (.maj23SignAggr (some s)) peerKey) (h : Verified L v.height v.validators s)
      (hround : s.round = v.round) (htype : s.type_ = voteTypePrecommit) :
      Move L e v { v with precommitMaj23SignAggr := some s }
  | precommitNil (v : View) (new : List Effect)
      (hstep : v.step.val < RoundStepType.precommit.val)
      (hvoted : Voted v voteTypePrecommit BlockID.zero new) :
      Move L e v
        { v with
          step := .precommitWait
          out := .schedule ⟨v.height, v.round, .precommitWait⟩ :: (new ++ v.out) }
  | precommitUnlock (v : View) (s : SignAggr) (block : Option NCBlock) (parts : Option PartSet)
      (new : List Effect) (hstep : v.step.val < RoundStepType.precommit.val)
      (hpolka : HasPolka v s)
      (hother : NCBlock.hashesTo L v.lockedBlock s.maj23.hash = .ok false)
      (hvoted : Voted v voteTypePrecommit BlockID.zero new) :
      Move L e v
        { v with
          step := .precommitWait
          lockedRound := -1
          lockedBlock := none
          lockedBlockParts := none
          proposalBlock := block
          proposalBlockParts := parts
          out := .schedule ⟨v.height, v.round, .precommitWait⟩ :: (new ++ v.out) }
  | precommitRelock (v : View) (s : SignAggr) (new : List Effect)
      (hstep : v.step.val < RoundStepType.precommit.val) (hpolka : HasPolka v s)
      (hsame : NCBlock.hashesTo L v.lockedBlock s.maj23.hash = .ok true)
      (hvoted : Voted v voteTypePrecommit s.maj23 new) :
      Move L e v
        { v with
          step := .precommitWait
          lockedRound := v.round
          out := .schedule ⟨v.height, v.round, .precommitWait⟩ :: (new ++ v.out) }
  | precommitLock (v : View) (s : SignAggr) (block : NCBlock) (new : List Effect)
      (hstep : v.step.val < RoundStepType.precommit.val) (hpolka : HasPolka v s)
      (hother : NCBlock.hashesTo L v.lockedBlock s.maj23.hash = .ok false)
      (hblock : v.proposalBlock = some block)
      (hsame : NCBlock.hashesTo L (some block) s.maj23.hash = .ok true)
      (hvoted : Voted v voteTypePrecommit s.maj23 new) :
      Move L e v
        { v with
          step := .precommitWait
          lockedRound := v.round
          lockedBlock := some block
          lockedBlockParts := v.proposalBlockParts
          out := .schedule ⟨v.height, v.round, .precommitWait⟩ :: (new ++ v.out) }
  | commit (v : View) (commitRound : ℤ) (block : Option NCBlock) (parts : Option PartSet)
      (hstep : v.step.val < RoundStepType.commit.val) :
      Move L e v
        { v with
          step := .commit
          commitRound := commitRound
          proposalBlock := block
          proposalBlockParts := parts }
  | finalize (v : View) (s : SignAggr) (block : NCBlock) (proposalBlock lockedBlock : Option NCBlock)
      (new : List Effect) (he : ¬ e.IsPrevoteAggr) (hstep : v.step = .commit)
      (hcommit : v.voteSignAggr.precommits v.commitRound = some s)
      (hblock : NCBlock.hashesTo L (some block) s.maj23.hash = .ok true)
      (hlock : lockedBlock = v.lockedBlock ∨
        ∃ b b', v.lockedBlock = some b ∧ lockedBlock = some b' ∧ SameBlock b b')
      (hnew : ∀ x ∈ new, x.benign = true) :
      Move L e v
        { v with
          proposalBlock := proposalBlock
          lockedBlock := lockedBlock
          out := new ++ (.finalizeCommit block :: v.out) }

/-- A sequence of moves. -/
abbrev Moves (L : Libs) (e : Event) : View → View → Prop := Relation.ReflTransGen (Move L e)

theorem Move.round_le {L : Libs} {e : Event} (h : Move L e v v') : v.round ≤ v'.round := by
  cases h with
  | enterRound round aggrs votes he hround => exact hround.le
  | _ => exact le_rfl

theorem Move.round_eq {L : Libs} {e : Event} (he : ∀ ti, e ≠ .timeout ti) (h : Move L e v v') :
    v'.round = v.round := by
  cases h with
  | enterRound round aggrs votes htimeout => exact absurd htimeout.choose_spec (he _)
  | _ => rfl

theorem Moves.round_eq {L : Libs} {e : Event} (he : ∀ ti, e ≠ .timeout ti) (h : Moves L e v v') :
    v'.round = v.round := by
  induction h with
  | refl => rfl
  | tail _ hmove ih => exact (hmove.round_eq he).trans ih

end Consensus

end LigoChain
