/-
# What a node remembers of a peer

`ConsensusReactor.Receive` and `PeerState` (`consensus/reactor.go`): the messages of one peer
change the record of what the peer has seen, before they are handed to the consensus state.

The handlers take the peer's word.  A message with a nil proposal, part, vote or aggregate, and a
vote type that is neither prevote nor precommit, make them panic (`message_crashes_node`), and
`ApplyProposalPOLMessage` stores a bit array of any size.  `peer_survives_iff` gives the exact
condition for every sequence of messages: no panic, and vote arrays of the size of the validator
set, exactly if every message meets the condition of `Heeds` in the state in which it arrives.

The bit arrays are those of the common library (`BitArrays`): of its operations only that they
keep the size of an array is used.
-/

import LigoChain.Consensus.HeightVotes

namespace LigoChain

namespace Consensus

open GoInt

/-- The bit arrays of the common library: `Size`, `NewBitArray` and `SetIndex(_, true)`, which is
also called on a nil array. -/
structure BitArrays (T : Type) where
  size : T → ℕ
  newBitArray : ℕ → Go (Option T)
  setIndex : Option T → ℕ → Go (Option T)
  size_newBitArray : ∀ {n : ℕ} {a : T}, newBitArray n = .ok (some a) → size a = n
  size_setIndex : ∀ {x : Option T} {i : ℕ} {a' : T}, setIndex x i = .ok (some a') →
    ∃ a, x = some a ∧ size a' = size a

/-- `PeerState`, with the fields of `PeerRoundState` but for the start time. -/
structure PeerState (T : Type) where
  height : ℕ
  round : ℤ
  step : ℕ
  proposal : Bool
  proposalBlockPartsHeader : PartSetHeader
  proposalBlockParts : Option T
  proposalPOLRound : ℤ
  proposalPOL : Option T
  prevotes : Option T
  precommits : Option T
  prevoteMaj23SignAggr : Bool
  precommitMaj23SignAggr : Bool

/-- `NewPeerState`. -/
def newPeerState (T : Type) : PeerState T where
  height := 0
  round := -1
  step := 0
  proposal := false
  proposalBlockPartsHeader := ⟨0, []⟩
  proposalBlockParts := none
  proposalPOLRound := -1
  proposalPOL := none
  prevotes := none
  precommits := none
  prevoteMaj23SignAggr := false
  precommitMaj23SignAggr := false

/-- The messages that `DecodeMessage` knows.  Those to which `Receive` has no answer, on any
channel, are `other`: `VoteSetMaj23Message`, `VoteSetBitsMessage` and nil. -/
inductive PeerMessage (T : Type)
  | newRoundStep (height : ℕ) (round : ℤ) (step : ℕ)
  | commitStep (height : ℕ) (blockPartsHeader : PartSetHeader) (blockParts : Option T)
  | proposal (proposal : Option Proposal)
  | proposalPOL (height : ℕ) (proposalPOLRound : ℤ) (proposalPOL : Option T)
  | blockPart (height : ℕ) (round : ℤ) (part : Option Part)
  | vote (vote : Option Vote)
  | hasVote (height : ℕ) (round : ℤ) (type_ : ℕ) (index : ℤ)
  | maj23SignAggr (signAggr : Option SignAggr)
  | other

/-- The channels. -/
inductive Channel
  | state
  | data
  | vote
  | unknown
  deriving DecidableEq, Repr

/-- The three arrays of votes. -/
inductive VoteArray
  | prevotes
  | precommits
  | proposalPOL
  deriving DecidableEq, Repr

namespace PeerState

variable {T : Type}
variable {height : ℕ}

/-- The array at one of the three places. -/
def array (ps : PeerState T) : VoteArray → Option T
  | .prevotes => ps.prevotes
  | .precommits => ps.precommits
  | .proposalPOL => ps.proposalPOL

/-- A write through the pointer that `getVoteBitArray` returns. -/
def setArray (ps : PeerState T) (x : Option T) : VoteArray → PeerState T
  | .prevotes => { ps with prevotes := x }
  | .precommits => { ps with precommits := x }
  | .proposalPOL => { ps with proposalPOL := x }

/-- `SetHasProposal` takes the proposal over. -/
def TakesProposal (ps : PeerState T) (proposal : Proposal) : Prop :=
  ¬ (ps.height ≠ proposal.height ∨ ps.round < proposal.round) ∧
    ¬ (ps.round = proposal.round ∧ ps.proposal = true)

instance (ps : PeerState T) (proposal : Proposal) : Decidable (ps.TakesProposal proposal) :=
  inferInstanceAs (Decidable (_ ∧ _))

/-- `getVoteBitArray`: where the array is, or nil. -/
def getVoteBitArray (ps : PeerState T) (height : ℕ) (round : ℤ) (type_ : ℕ) :
    Go (Option VoteArray) :=
  if !isVoteTypeValid type_ then .error (.sanity "Invalid vote type")
  else .ok (
    if ps.height = height then
      if ps.round = round then
        if type_ = voteTypePrevote then some .prevotes else some .precommits
      else if ps.proposalPOLRound = round then
        if type_ = voteTypePrevote then some .proposalPOL else none
      else none
    else none)

/-- `ApplyNewRoundStepMessage`.  `CompareHRS` compares only the heights. -/
def applyNewRoundStepMessage (ps : PeerState T) (height : ℕ) (round : ℤ) (step : ℕ) :
    PeerState T :=
  if height < ps.height then ps
  else
    let moved := { ps with height := height, round := round, step := step }
    if ps.height ≠ height ∨ ps.round ≠ round then
      { moved with
        proposal := false
        proposalBlockPartsHeader := ⟨0, []⟩
        proposalBlockParts := none
        proposalPOLRound := -1
        proposalPOL := none
        prevotes := none
        precommits := none }
    else moved

/-- `ApplyCommitStepMessage`. -/
def applyCommitStepMessage (ps : PeerState T) (height : ℕ) (blockPartsHeader : PartSetHeader)
    (blockParts : Option T) : PeerState T :=
  if ps.height ≠ height then ps
  else
    { ps with proposalBlockPartsHeader := blockPartsHeader, proposalBlockParts := blockParts }

/-- `ApplyProposalPOLMessage`. -/
def applyProposalPOLMessage (ps : PeerState T) (height : ℕ) (proposalPOLRound : ℤ)
    (proposalPOL : Option T) : PeerState T :=
  if ps.height ≠ height then ps
  else if ps.proposalPOLRound ≠ proposalPOLRound then ps
  else { ps with proposalPOL := proposalPOL }

/-- `SetHasMaj23SignAggr`. -/
def setHasMaj23SignAggr (ps : PeerState T) (signAggr : Option SignAggr) : Go (PeerState T) :=
  match signAggr with
  | none => .error .nilDeref
  | some signAggr =>
    if ps.height ≠ signAggr.height ∨ ps.round ≠ signAggr.round then .ok ps
    else if signAggr.type_ = voteTypePrevote then .ok { ps with prevoteMaj23SignAggr := true }
    else if signAggr.type_ = voteTypePrecommit then .ok { ps with precommitMaj23SignAggr := true }
    else .error (.sanity "Invalid signAggr type")

variable (L : BitArrays T)

/-- `SetHasProposal`. -/
def setHasProposal (ps : PeerState T) (proposal : Option Proposal) : Go (PeerState T) :=
  match proposal with
  | none => .error .nilDeref
  | some proposal =>
    if ps.TakesProposal proposal then do
      let parts ← L.newBitArray proposal.blockPartsHeader.total
      .ok { ps with
        proposal := true
        proposalBlockPartsHeader := proposal.blockPartsHeader
        proposalBlockParts := parts
        proposalPOLRound := proposal.polRound
        proposalPOL := none
        prevoteMaj23SignAggr := false
        precommitMaj23SignAggr := false }
    else .ok ps

/-- `SetHasProposalBlockPart`. -/
def setHasProposalBlockPart (ps : PeerState T) (height : ℕ) (round index : ℤ) :
    Go (PeerState T) :=
  if ps.height ≠ height ∨ ps.round ≠ round then .ok ps
  else do
    let parts ← L.setIndex ps.proposalBlockParts (toUint64 index)
    .ok { ps with proposalBlockParts := parts }

/-- `ensureVoteBitArrays` for one array. -/
def ensureArray (ps : PeerState T) (numValidators : ℕ) (place : VoteArray) : Go (PeerState T) :=
  if (ps.array place).isSome then .ok ps
  else do
    let a ← L.newBitArray numValidators
    .ok (ps.setArray a place)

/-- `ensureVoteBitArrays`. -/
def ensureVoteBitArrays (ps : PeerState T) (height numValidators : ℕ) : Go (PeerState T) :=
  if ps.height = height then do
    let ps ← ps.ensureArray L numValidators .prevotes
    let ps ← ps.ensureArray L numValidators .precommits
    ps.ensureArray L numValidators .proposalPOL
  else .ok ps

/-- `setHasVote`. -/
def setHasVote (ps : PeerState T) (height : ℕ) (round : ℤ) (type_ : ℕ) (index : ℤ) :
    Go (PeerState T) := do
  let place ← ps.getVoteBitArray height round type_
  let x ← L.setIndex (place.bind ps.array) (toUint64 index)
  .ok (place.elim ps (ps.setArray x))

/-- `ApplyHasVoteMessage`. -/
def applyHasVoteMessage (ps : PeerState T) (height : ℕ) (round : ℤ) (type_ : ℕ) (index : ℤ) :
    Go (PeerState T) :=
  if ps.height ≠ height then .ok ps else ps.setHasVote L height round type_ index

/-- `Receive` on a message of a known peer.  The consensus state is at the height `csHeight`, and
`valSize` is the number of validators at each height. -/
def receive (valSize : ℕ → ℕ) (csHeight : ℕ) (ps : PeerState T) (chID : Channel)
    (msg : PeerMessage T) : Go (PeerState T) :=
  match chID, msg with
  | .state, .newRoundStep height round step => .ok (ps.applyNewRoundStepMessage height round step)
  | .state, .commitStep height header parts => .ok (ps.applyCommitStepMessage height header parts)
  | .state, .hasVote height round type_ index => ps.applyHasVoteMessage L height round type_ index
  | .data, .proposal proposal => ps.setHasProposal L proposal
  | .data, .proposalPOL height round pol => .ok (ps.applyProposalPOLMessage height round pol)
  | .data, .blockPart height round part =>
    match part with
    | none => .error .nilDeref
    | some part => ps.setHasProposalBlockPart L height round part.index
  | .data, .maj23SignAggr signAggr => ps.setHasMaj23SignAggr signAggr
  | .vote, .vote vote => do
    let ps ← ps.ensureVoteBitArrays L csHeight (valSize csHeight)
    match vote with
    | none => .error .nilDeref
    | some vote =>
      ps.setHasVote L vote.height (ofUint64 vote.round) vote.type_ (ofUint64 vote.validatorIndex)
  | _, _ => .ok ps

/-! ## The sizes of the arrays -/

/-- The arrays of votes have the size of the validator set of the peer's height. -/
def Sized (valSize : ℕ → ℕ) (ps : PeerState T) : Prop :=
  ∀ place a, ps.array place = some a → L.size a = valSize ps.height

variable {L} {valSize : ℕ → ℕ} {ps ps' : PeerState T}

theorem sized_newPeerState : (newPeerState T).Sized L valSize := by
  rintro (_ | _ | _) a h <;> cases h

theorem height_setArray (ps : PeerState T) (x : Option T) (place : VoteArray) :
    (ps.setArray x place).height = ps.height := by
  cases place <;> rfl

theorem array_setArray (ps : PeerState T) (x : Option T) (place other : VoteArray) :
    (ps.setArray x place).array other = if other = place then x else ps.array other := by
  cases place <;> cases other <;> rfl

theorem Sized.setArray (h : ps.Sized L valSize) {x : Option T} (place : VoteArray)
    (hx : ∀ a, x = some a → L.size a = valSize ps.height) :
    (ps.setArray x place).Sized L valSize := by
  intro other a ha
  rw [array_setArray] at ha
  rw [height_setArray]
  split at ha
  · exact hx a ha
  · exact h other a ha

theorem Sized.congr (h : ps.Sized L valSize) (hheight : ps'.height = ps.height)
    (harray : ∀ place, ps'.array place = ps.array place) : ps'.Sized L valSize := by
  intro place a ha
  rw [hheight]
  exact h place a (harray place ▸ ha)

theorem Sized.setHasVote (h : ps.Sized L valSize) {round : ℤ} {type_ : ℕ} {index : ℤ}
    (hset : ps.setHasVote L height round type_ index = .ok ps') : ps'.Sized L valSize := by
  unfold PeerState.setHasVote at hset
  obtain ⟨place, -, hset⟩ := Steps.bind_eq_ok.1 hset
  obtain ⟨x, hx, hset⟩ := Steps.bind_eq_ok.1 hset
  cases hset
  cases place with
  | none => exact h
  | some place =>
    refine h.setArray place fun a ha => ?_
    obtain ⟨a', ha', hsize⟩ := L.size_setIndex (ha ▸ hx)
    rw [hsize]
    exact h place a' ha'

theorem Sized.ensureArray (h : ps.Sized L valSize) {place : VoteArray}
    (hset : ps.ensureArray L (valSize ps.height) place = .ok ps') :
    ps'.Sized L valSize ∧ ps'.height = ps.height := by
  unfold PeerState.ensureArray at hset
  split at hset
  · exact Except.ok.inj hset ▸ ⟨h, rfl⟩
  · obtain ⟨x, hx, hset⟩ := Steps.bind_eq_ok.1 hset
    cases hset
    exact ⟨h.setArray place fun a ha => L.size_newBitArray (ha ▸ hx), height_setArray _ _ _⟩

/-- **The arrays that the node makes** are of the size of its validator set. -/
theorem Sized.ensureVoteBitArrays (h : ps.Sized L valSize)
    (hset : ps.ensureVoteBitArrays L height (valSize height) = .ok ps') : ps'.Sized L valSize := by
  unfold PeerState.ensureVoteBitArrays at hset
  split at hset
  next hheight =>
    subst hheight
    obtain ⟨ps₁, hps₁, hset⟩ := Steps.bind_eq_ok.1 hset
    obtain ⟨ps₂, hps₂, hset⟩ := Steps.bind_eq_ok.1 hset
    obtain ⟨h₁, heq₁⟩ := h.ensureArray hps₁
    obtain ⟨h₂, heq₂⟩ := h₁.ensureArray (heq₁ ▸ hps₂)
    exact (h₂.ensureArray (by rw [heq₂, heq₁]; exact hset)).1
  next => exact Except.ok.inj hset ▸ h

theorem Sized.applyNewRoundStepMessage (h : ps.Sized L valSize) (height : ℕ) (round : ℤ)
    (step : ℕ) : (ps.applyNewRoundStepMessage height round step).Sized L valSize := by
  unfold PeerState.applyNewRoundStepMessage
  split
  · exact h
  dsimp only
  split
  · rintro (_ | _ | _) a ha <;> cases ha
  next hsame =>
    exact h.congr (not_not.1 (not_or.1 hsame).1).symm fun place => by cases place <;> rfl

theorem Sized.applyCommitStepMessage (h : ps.Sized L valSize) (height : ℕ)
    (header : PartSetHeader) (parts : Option T) :
    (ps.applyCommitStepMessage height header parts).Sized L valSize := by
  unfold PeerState.applyCommitStepMessage
  split
  · exact h
  · exact h.congr rfl fun place => by cases place <;> rfl

theorem Sized.setHasProposal (h : ps.Sized L valSize) {proposal : Option Proposal}
    (hset : ps.setHasProposal L proposal = .ok ps') : ps'.Sized L valSize := by
  unfold PeerState.setHasProposal at hset
  split at hset
  · simp at hset
  split at hset
  · obtain ⟨parts, -, hset⟩ := Steps.bind_eq_ok.1 hset
    cases hset
    rintro (_ | _ | _) a ha
    · exact h .prevotes a ha
    · exact h .precommits a ha
    · cases ha
  · exact Except.ok.inj hset ▸ h

theorem Sized.setHasProposalBlockPart (h : ps.Sized L valSize) {round index : ℤ}
    (hset : ps.setHasProposalBlockPart L height round index = .ok ps') : ps'.Sized L valSize := by
  unfold PeerState.setHasProposalBlockPart at hset
  split at hset
  · exact Except.ok.inj hset ▸ h
  · obtain ⟨parts, -, hset⟩ := Steps.bind_eq_ok.1 hset
    cases hset
    exact h.congr rfl fun place => by cases place <;> rfl

theorem Sized.setHasMaj23SignAggr (h : ps.Sized L valSize) {signAggr : Option SignAggr}
    (hset : ps.setHasMaj23SignAggr signAggr = .ok ps') : ps'.Sized L valSize := by
  unfold PeerState.setHasMaj23SignAggr at hset
  split at hset
  · simp at hset
  split at hset
  · exact Except.ok.inj hset ▸ h
  split at hset
  · cases hset
    exact h.congr rfl fun place => by cases place <;> rfl
  split at hset
  · cases hset
    exact h.congr rfl fun place => by cases place <;> rfl
  · simp at hset

/-- **The array that a peer sends** has to be of the right size, if it is stored. -/
theorem Sized.applyProposalPOLMessage_iff (h : ps.Sized L valSize) {round : ℤ} {pol : Option T} :
    (ps.applyProposalPOLMessage height round pol).Sized L valSize ↔
      (ps.height = height → ps.proposalPOLRound = round →
        ∀ a, pol = some a → L.size a = valSize ps.height) := by
  unfold PeerState.applyProposalPOLMessage
  split
  next hne => exact iff_of_true h fun heq => absurd heq hne
  split
  next hne => exact iff_of_true h fun _ heq => absurd heq hne
  next hheight hround =>
    rw [not_not] at hheight hround
    constructor
    · intro hsized _ _ a ha
      exact hsized .proposalPOL a ha
    · intro hpol
      exact h.setArray .proposalPOL (hpol hheight hround)

/-! ## The panics -/

variable (L valSize)

/-- `setHasVote` returns: the type is valid, and the bit can be set. -/
def VoteSettable (ps : PeerState T) (height : ℕ) (round : ℤ) (type_ : ℕ) (index : ℤ) : Prop :=
  isVoteTypeValid type_ = true ∧ ∀ place, ps.getVoteBitArray height round type_ = .ok place →
    ∃ x, L.setIndex (place.bind ps.array) (toUint64 index) = .ok x

/-- What a message has to be like, in the state in which it arrives: its proposal, part, vote or
aggregate is there, a vote type is valid where it is looked at, the bit arrays that are at hand can
be set and those that are needed can be made, and an array that is stored is of the right size. -/
def Heeds (csHeight : ℕ) (ps : PeerState T) (chID : Channel) (msg : PeerMessage T) : Prop :=
  match chID, msg with
  | .state, .hasVote height round type_ index =>
    ps.height = height → ps.VoteSettable L height round type_ index
  | .data, .proposal proposal => ∃ x, proposal = some x ∧ (ps.TakesProposal x →
    ∃ parts, L.newBitArray x.blockPartsHeader.total = .ok parts)
  | .data, .proposalPOL height round pol => ps.height = height → ps.proposalPOLRound = round →
    ∀ a, pol = some a → L.size a = valSize ps.height
  | .data, .blockPart height round part => ∃ x, part = some x ∧ (ps.height = height →
    ps.round = round → ∃ parts, L.setIndex ps.proposalBlockParts (toUint64 x.index) = .ok parts)
  | .data, .maj23SignAggr signAggr => ∃ x, signAggr = some x ∧ (ps.height = x.height →
    ps.round = x.round → isVoteTypeValid x.type_ = true)
  | .vote, .vote vote => ∃ x ps₁, vote = some x ∧
    ps.ensureVoteBitArrays L csHeight (valSize csHeight) = .ok ps₁ ∧
    ps₁.VoteSettable L x.height (ofUint64 x.round) x.type_ (ofUint64 x.validatorIndex)
  | _, _ => True

variable {L valSize}

theorem setHasVote_returns_iff {round : ℤ} {type_ : ℕ} {index : ℤ} :
    (∃ ps', ps.setHasVote L height round type_ index = .ok ps') ↔
      ps.VoteSettable L height round type_ index := by
  unfold setHasVote VoteSettable
  cases hget : ps.getVoteBitArray height round type_ with
  | error p =>
    unfold getVoteBitArray at hget
    split at hget
    next hinvalid => simpa [bind, Except.bind] using hinvalid
    next => simp at hget
  | ok place =>
    have hvalid : isVoteTypeValid type_ = true := by
      unfold getVoteBitArray at hget
      split at hget
      · simp at hget
      next hvalid => simpa using hvalid
    simp only [hvalid, true_and, Except.ok.injEq, forall_eq']
    exact Steps.exists_bind_ok

theorem setHasProposal_returns_iff {proposal : Option Proposal} :
    (∃ ps', ps.setHasProposal L proposal = .ok ps') ↔ ∃ x, proposal = some x ∧
      (ps.TakesProposal x → ∃ parts, L.newBitArray x.blockPartsHeader.total = .ok parts) := by
  cases proposal with
  | none => simp [setHasProposal]
  | some x =>
    simp only [setHasProposal, Option.some.injEq, exists_eq_left']
    split
    next htakes =>
      rw [forall_prop_of_true htakes]
      exact Steps.exists_bind_ok
    next htakes => exact iff_of_true ⟨_, rfl⟩ fun h => absurd h htakes

theorem setHasProposalBlockPart_returns_iff {round index : ℤ} :
    (∃ ps', ps.setHasProposalBlockPart L height round index = .ok ps') ↔
      (ps.height = height → ps.round = round →
        ∃ parts, L.setIndex ps.proposalBlockParts (toUint64 index) = .ok parts) := by
  unfold setHasProposalBlockPart
  split
  next hother =>
    exact iff_of_true ⟨_, rfl⟩ fun hheight hround => hother.elim (absurd hheight) (absurd hround)
  next hsame =>
    obtain ⟨hheight, hround⟩ := not_or.1 hsame
    rw [forall_prop_of_true (not_not.1 hheight), forall_prop_of_true (not_not.1 hround)]
    exact Steps.exists_bind_ok

theorem setHasMaj23SignAggr_returns_iff {signAggr : Option SignAggr} :
    (∃ ps', ps.setHasMaj23SignAggr signAggr = .ok ps') ↔ ∃ x, signAggr = some x ∧
      (ps.height = x.height → ps.round = x.round → isVoteTypeValid x.type_ = true) := by
  cases signAggr with
  | none => simp [setHasMaj23SignAggr]
  | some x =>
    simp only [setHasMaj23SignAggr, Option.some.injEq, exists_eq_left']
    split
    next hother =>
      exact iff_of_true ⟨_, rfl⟩ fun hheight hround => hother.elim (absurd hheight) (absurd hround)
    next hsame =>
      obtain ⟨hheight, hround⟩ := not_or.1 hsame
      rw [forall_prop_of_true (not_not.1 hheight), forall_prop_of_true (not_not.1 hround)]
      split
      next hprevote => exact iff_of_true ⟨_, rfl⟩ (by simp [isVoteTypeValid, hprevote])
      next hprevote =>
      split
      next hprecommit => exact iff_of_true ⟨_, rfl⟩ (by simp [isVoteTypeValid, hprecommit])
      next hprecommit => simp [isVoteTypeValid, hprevote, hprecommit]

theorem exists_sized_iff {x : Go (PeerState T)} (h : ∀ ps', x = .ok ps' → ps'.Sized L valSize) :
    (∃ ps', x = .ok ps' ∧ ps'.Sized L valSize) ↔ ∃ ps', x = .ok ps' :=
  ⟨fun ⟨ps', hx, _⟩ => ⟨ps', hx⟩, fun ⟨ps', hx⟩ => ⟨ps', hx, h ps' hx⟩⟩

/-- **One message** is handled without a panic and leaves arrays of the right size exactly under
the condition. -/
theorem Sized.receive_iff (h : ps.Sized L valSize) (csHeight : ℕ) (chID : Channel)
    (msg : PeerMessage T) :
    (∃ ps', receive L valSize csHeight ps chID msg = .ok ps' ∧ ps'.Sized L valSize) ↔
      ps.Heeds L valSize csHeight chID msg := by
  have hsame : (∃ ps', (.ok ps : Go (PeerState T)) = .ok ps' ∧ ps'.Sized L valSize) ↔ True :=
    iff_of_true ⟨ps, rfl, h⟩ trivial
  cases chID with
  | state =>
    cases msg with
    | newRoundStep height round step =>
      exact iff_of_true ⟨_, rfl, h.applyNewRoundStepMessage _ _ _⟩ trivial
    | commitStep height header parts =>
      exact iff_of_true ⟨_, rfl, h.applyCommitStepMessage _ _ _⟩ trivial
    | hasVote height round type_ index =>
      show (∃ ps', ps.applyHasVoteMessage L height round type_ index = .ok ps' ∧ _) ↔
        (ps.height = height → _)
      unfold applyHasVoteMessage
      split
      next hne => exact iff_of_true ⟨_, rfl, h⟩ fun heq => absurd heq hne
      next heq =>
        rw [exists_sized_iff fun ps' hset => h.setHasVote hset, setHasVote_returns_iff,
          forall_prop_of_true (not_not.1 heq)]
    | _ => exact hsame
  | data =>
    cases msg with
    | proposal proposal =>
      exact (exists_sized_iff fun ps' hset => h.setHasProposal hset).trans
        setHasProposal_returns_iff
    | proposalPOL height round pol =>
      refine Iff.trans ?_ h.applyProposalPOLMessage_iff
      simp [receive]
    | blockPart height round part =>
      cases part with
      | none => simp [receive, Heeds]
      | some part =>
        refine (exists_sized_iff fun ps' hset => h.setHasProposalBlockPart hset).trans ?_
        simpa [Heeds] using setHasProposalBlockPart_returns_iff
    | maj23SignAggr signAggr =>
      exact (exists_sized_iff fun ps' hset => h.setHasMaj23SignAggr hset).trans
        setHasMaj23SignAggr_returns_iff
    | _ => exact hsame
  | vote =>
    cases msg with
    | vote vote =>
      show (∃ ps', (ps.ensureVoteBitArrays L csHeight (valSize csHeight) >>= fun ps₁ => _) =
        .ok ps' ∧ _) ↔ ∃ x ps₁, vote = some x ∧ _
      cases hensure : ps.ensureVoteBitArrays L csHeight (valSize csHeight) with
      | error p => simp [bind, Except.bind]
      | ok ps₁ =>
        have h₁ := h.ensureVoteBitArrays hensure
        cases vote with
        | none => simp [bind, Except.bind]
        | some x =>
          refine (exists_sized_iff fun ps' hset => h₁.setHasVote hset).trans ?_
          simpa using setHasVote_returns_iff
    | _ => exact hsame
  | unknown => exact hsame

/-! ## The messages of one peer -/

end PeerState

/-- A peer, and its state once it was added: it is in `peerStates` exactly then. -/
structure Peer (T : Type) where
  key : String
  state : Option (PeerState T)

/-- What `Receive` is called with, and what it reads of the node. -/
structure Received (T : Type) where
  isRunning : Bool
  csHeight : ℕ
  chID : Channel
  msg : PeerMessage T

namespace Peer

variable {T : Type} (L : BitArrays T) (valSize : ℕ → ℕ)

/-- `AddPeer`. -/
def addPeer (p : Peer T) : Peer T :=
  if p.state.isSome then p else if p.key = "" then p else { p with state := some (newPeerState T) }

/-- `Receive`: a peer without a state is added first, and has to have one then. -/
def receive (p : Peer T) (x : Received T) : Go (Peer T) :=
  if !x.isRunning then .ok p
  else match p.addPeer.state with
    | none => .error (.sanity "interface conversion: interface is nil, not *PeerState")
    | some ps => do
      let ps ← PeerState.receive L valSize x.csHeight ps x.chID x.msg
      .ok { p with state := some ps }

/-- The arrays of votes of the peer have the size of the validator set of its height. -/
def Sized (p : Peer T) : Prop := ∀ ps, p.state = some ps → ps.Sized L valSize

/-- What the message of a peer has to be like when the node is running. -/
def Heeds (p : Peer T) (x : Received T) : Prop :=
  x.isRunning = true → ∃ ps, p.addPeer.state = some ps ∧
    ps.Heeds L valSize x.csHeight x.chID x.msg

variable {L valSize}

theorem Sized.addPeer {p : Peer T} (h : p.Sized L valSize) : p.addPeer.Sized L valSize := by
  unfold Peer.addPeer
  split
  · exact h
  split
  · exact h
  · intro ps hps
    exact Option.some.inj hps ▸ PeerState.sized_newPeerState

theorem Sized.receive_iff {p : Peer T} (h : p.Sized L valSize) (x : Received T) :
    (∃ p', p.receive L valSize x = .ok p' ∧ p'.Sized L valSize) ↔ p.Heeds L valSize x := by
  unfold Peer.receive Heeds
  cases x.isRunning with
  | false => exact iff_of_true ⟨p, rfl, h⟩ fun hfalse => by cases hfalse
  | true =>
    cases hstate : p.addPeer.state with
    | none => simp
    | some ps =>
      simp only [Bool.not_true, Bool.false_eq_true, if_false, forall_const, Option.some.injEq,
        exists_eq_left']
      rw [← PeerState.Sized.receive_iff (h.addPeer ps hstate)]
      constructor
      · rintro ⟨p', hp', hsized⟩
        obtain ⟨ps', hps', hp'⟩ := Steps.bind_eq_ok.1 hp'
        cases hp'
        exact ⟨ps', hps', hsized ps' rfl⟩
      · rintro ⟨ps', hps', hsized⟩
        refine ⟨_, Steps.bind_eq_ok.2 ⟨ps', hps', rfl⟩, fun ps₁ hps₁ => ?_⟩
        exact Option.some.inj hps₁ ▸ hsized

/-- **The messages of one peer.**  Along a sequence of messages `Receive` does not panic and the
arrays of votes keep the size of the validator set exactly if every message meets the condition in
the state in which it arrives. -/
theorem peer_survives_iff (L : BitArrays T) (valSize : ℕ → ℕ) (key : String)
    (received : List (Received T)) :
    Steps.Survives (receive L valSize) (Sized L valSize) ⟨key, none⟩ received ↔
      Steps.RunMeets (receive L valSize) (Heeds L valSize) ⟨key, none⟩ received :=
  Steps.survives_iff_runMeets (fun _ x h => h.receive_iff x) received fun _ h => by cases h

end Peer

/-- Bit arrays as lists. -/
def plainBitArrays : BitArrays (List Bool) where
  size := List.length
  newBitArray n := .ok (if n = 0 then none else some (List.replicate n false))
  setIndex x i := .ok (x.map fun a => a.set i true)
  size_newBitArray {n a} h := by
    split at h
    · simp at h
    · obtain rfl := Option.some.inj (Except.ok.inj h)
      exact List.length_replicate
  size_setIndex {x i a'} h := by
    obtain ⟨a, rfl, rfl⟩ := Option.map_eq_some_iff.1 (Except.ok.inj h)
    exact ⟨a, rfl, List.length_set⟩

/-- A vote of a type that is neither prevote nor precommit. -/
def voteOfType3 : Vote where
  validatorAddress := []
  validatorIndex := 0
  height := 0
  round := 0
  type_ := 3
  blockID := BlockID.zero
  signature := []
  signBytes := []

/-- **One message stops the node**, if its proposal, part, aggregate or vote is nil, or if it is a
vote of an unknown type; and a peer's array of one bit is stored for three validators. -/
theorem message_crashes_node :
    let receive (chID : Channel) (msg : PeerMessage (List Bool)) :=
      Peer.receive plainBitArrays (fun _ => 3) ⟨"p", none⟩ ⟨true, 1, chID, msg⟩
    (∀ msg ∈ [.proposal none, .blockPart 0 0 none, .maj23SignAggr none],
      receive .data msg = .error .nilDeref) ∧
    receive .vote (.vote none) = .error .nilDeref ∧
    receive .vote (.vote (some voteOfType3)) = .error (.sanity "Invalid vote type") ∧
    receive .state (.hasVote 0 0 3 0) = .error (.sanity "Invalid vote type") ∧
    ∃ p, receive .data (.proposalPOL 0 (-1) (some [true])) = .ok p ∧
      ¬ p.Sized plainBitArrays fun _ => 3 := by
  refine ⟨?_, rfl, rfl, rfl, _, rfl, fun h => ?_⟩
  · simp only [List.mem_cons, List.not_mem_nil, or_false, forall_eq_or_imp, forall_eq]
    exact ⟨rfl, rfl, rfl⟩
  · exact absurd (h _ rfl .proposalPOL [true] rfl) (by decide)

end Consensus

end LigoChain
