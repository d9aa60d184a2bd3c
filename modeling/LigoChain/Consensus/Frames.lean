/-
# What the handlers leave alone

For every handler of `chain/consensus/tendermint/consensus/state.go`, whatever its
arguments: `Frame` says what it does not touch, which rounds it votes in and which
blocks it hands to the backend.  No assumption is made on the timeouts that fire, and
`enterLowerRound` is among the handlers.

Each lemma says both how a handler ends when it returns and how it can panic.  Of the
panics only those of `SetRound`, `ResetTop2Round` and `addRound`
(`height_vote_set.go`, `height_sign_aggr.go`) are told apart from the others.
-/

import LigoChain.Consensus.HandlerMoves

namespace LigoChain

open Steps

/-- The panics of `SetRound`, `ResetTop2Round` and `addRound`, in either height set. -/
def GoPanic.byRounds (p : GoPanic) : Bool :=
  p == .sanity "SetRound() must increment hvs.round" ||
  p == .sanity "addRound() for an existing round" ||
  p == .sanity "HeightVoteSignAggr.ResetTop2Round() must have enough round to reset" ||
  p == .sanity "hvs.ResetTop2Round() must have enough round to reset" ||
  p == .sanity "Cannot make VoteSet for height == 0, doesn't make sense."

/-- Not a panic of the two height sets' rounds. -/
abbrev GoPanic.Other (p : GoPanic) : Prop := p.byRounds = false

/-- The call returns, or panics outside the two height sets' rounds. -/
abbrev Go.Calm {α : Type} (x : Go α) : Prop := Meets GoPanic.Other (fun _ => True) x

theorem NCBlock.calm_hash (L : Libs) (b : Option NCBlock) : (NCBlock.hash L b).Calm := by
  unfold NCBlock.hash
  split
  · trivial
  · split
    · rfl
    · trivial

theorem NCBlock.calm_hashesTo (L : Libs) (b : Option NCBlock) (h : Bytes) :
    (NCBlock.hashesTo L b h).Calm := by
  unfold NCBlock.hashesTo
  split
  · trivial
  split
  · trivial
  · exact (NCBlock.calm_hash L b).map fun _ _ _ => trivial

theorem NCBlock.calm_validateBasic (b : NCBlock) (extra : TendermintExtra) :
    (b.validateBasic extra).Calm := by
  unfold NCBlock.validateBasic
  split
  · rfl
  · trivial

/-- A block that `ValidateBasic` looked at has its extra data. -/
theorem NCBlock.isSome_of_validateBasic {b : NCBlock} {extra : TendermintExtra} {basic : Bool}
    (h : b.validateBasic extra = .ok basic) : b.ntcExtra.isSome = true := by
  unfold NCBlock.validateBasic at h
  split at h
  · simp at h
  next hextra => rw [hextra]; rfl

theorem calm_newPartSetFromHeader (header : PartSetHeader) :
    (newPartSetFromHeader header).Calm := by
  unfold newPartSetFromHeader
  split
  · rfl
  · trivial

theorem PartSet.calm_addPart (L : Libs) (ps : PartSet) (part : Part) (verify : Bool) :
    (ps.addPart L part verify).Calm := by
  unfold PartSet.addPart
  split
  · trivial
  split
  · rfl
  split
  · rfl
  · trivial
  · split <;> trivial

namespace Consensus

open GoInt

/-- The vote sets of height `0` cannot be made; those of another height start with round `0`. -/
theorem HeightVoteSet.new_eq_ok {chainID : String} {height : ℕ} {valSet : ValidatorSet}
    {hvs : HeightVoteSet} (h : HeightVoteSet.new chainID height valSet = .ok hvs) :
    height ≠ 0 ∧ hvs.height = height ∧ hvs.round = 0 ∧
      (hvs.roundVoteSets.lookup 0).isSome = true := by
  obtain ⟨rvs, ⟨hpre, -⟩, rfl⟩ := HeightVoteSet.addRound_blank h
  refine ⟨?_, rfl, rfl, by rw [AList.lookup_insert]; rfl⟩
  rintro rfl
  simp [newVoteSet] at hpre

/-- An effect of a handler that votes in rounds with the property `P` and hands over blocks
with the property `C`. -/
def Effect.Within (P : ℤ → Prop) (C : NCBlock → Prop) : Effect → Prop
  | .signVote vote => ∃ r, P r ∧ vote.round = toUint64 r
  | .commit block => C block
  | _ => True

/-- The proposer of round `0` is a validator once it is drawn, and a proposer is named only with
one drawn and the validator's own key at hand. -/
structure ConsensusState.Drawn (cs : ConsensusState) : Prop where
  seat : 0 ≤ cs.vrfValIndex → cs.vrfValIndex < cs.validators.size
  named : cs.proposer.isSome = true → 0 ≤ cs.vrfValIndex ∧ cs.privValidator.isSome = true

/-- The block of the lock has its extra data, so that it can be hashed. -/
def ConsensusState.LockHashes (cs : ConsensusState) : Prop :=
  ∀ block, cs.lockedBlock = some block → block.ntcExtra.isSome = true

/-- What a handler leaves alone: all but the progress within the round. -/
structure Frame (P : ℤ → Prop) (C : NCBlock → Prop) (cs cs' : ConsensusState) : Prop where
  height : cs'.height = cs.height
  validators : cs'.validators = cs.validators
  chainID : cs'.ntcExtra.chainID = cs.ntcExtra.chainID
  extraHeight : cs'.ntcExtra.height = cs.ntcExtra.height
  votes : cs'.votes = cs.votes
  voteSignAggr : cs'.voteSignAggr = cs.voteSignAggr
  drawn : cs.Drawn → cs'.Drawn
  proposer : cs.proposer.isSome = true → cs'.proposer.isSome = true
  proposal : cs'.proposal.isSome = true → cs.proposal.isSome = true ∨ cs'.proposer.isSome = true
  lock : cs.LockHashes → cs'.LockHashes
  step : cs'.step = .newHeight → cs.step = .newHeight
  round : P cs'.round
  out : ∃ new, cs'.out = new ++ cs.out ∧ ∀ x ∈ new, x.Within P C

namespace Frame

variable {P : ℤ → Prop} {C : NCBlock → Prop} {cs cs' cs'' : ConsensusState}

variable {block locked : Option NCBlock} {parts lockedParts : Option PartSet} {lockedRound : ℤ}
variable {prevotes precommits : Option SignAggr} {miner : Option LigoBlock}

theorem relock (h : P cs.round)
    (hlock : cs.LockHashes → ∀ block, locked = some block → block.ntcExtra.isSome = true) :
    Frame P C cs { cs with
      proposalBlock := block, proposalBlockParts := parts, blockFromMiner := miner
      lockedRound := lockedRound, lockedBlock := locked, lockedBlockParts := lockedParts
      prevoteMaj23SignAggr := prevotes, precommitMaj23SignAggr := precommits } :=
  ⟨rfl, rfl, rfl, rfl, rfl, rfl, fun h => ⟨h.1, h.2⟩, id, .inl, hlock, id, h, [], rfl, by simp⟩

theorem free (h : P cs.round) : Frame P C cs { cs with
    proposalBlock := block, proposalBlockParts := parts, blockFromMiner := miner
    lockedRound := lockedRound, prevoteMaj23SignAggr := prevotes
    precommitMaj23SignAggr := precommits } := relock h id

theorem refl (h : P cs.round) : Frame P C cs cs := free h

theorem trans (h : Frame P C cs cs') (h' : Frame P C cs' cs'') : Frame P C cs cs'' where
  height := h'.height.trans h.height
  validators := h'.validators.trans h.validators
  chainID := h'.chainID.trans h.chainID
  extraHeight := h'.extraHeight.trans h.extraHeight
  votes := h'.votes.trans h.votes
  voteSignAggr := h'.voteSignAggr.trans h.voteSignAggr
  drawn hdrawn := h'.drawn (h.drawn hdrawn)
  proposer hsome := h'.proposer (h.proposer hsome)
  proposal hsome := (h'.proposal hsome).elim (fun h₁ => (h.proposal h₁).imp_right h'.proposer) .inr
  lock hlock := h'.lock (h.lock hlock)
  step hstep := h.step (h'.step hstep)
  round := h'.round
  out := by
    obtain ⟨new, hout, hnew⟩ := h.out
    obtain ⟨new', hout', hnew'⟩ := h'.out
    refine ⟨new' ++ new, by rw [hout', hout, List.append_assoc], fun x hx => ?_⟩
    rcases List.mem_append.1 hx with hx | hx
    · exact hnew' x hx
    · exact hnew x hx

theorem emit (h : P cs.round) {x : Effect} (hx : x.Within P C) : Frame P C cs (cs.emit x) :=
  { Frame.refl (C := C) h with out := ⟨[x], rfl, by simpa using hx⟩, drawn := fun h => ⟨h.1, h.2⟩ }

theorem ite {c : Prop} [Decidable c] (h : Frame P C cs cs') (h' : Frame P C cs cs'') :
    Frame P C cs (if c then cs' else cs'') := by
  split
  · exact h
  · exact h'

end Frame

namespace ConsensusState

variable {env : Env} {now : ℤ} {P : ℤ → Prop} {C : NCBlock → Prop} {cs cs' : ConsensusState}
variable {round : ℤ}

/-- The handler returns a state that differs within the frame, or panics elsewhere. -/
abbrev Framed (P : ℤ → Prop) (C : NCBlock → Prop) (cs : ConsensusState)
    (x : Go ConsensusState) : Prop := Meets GoPanic.Other (Frame P C cs) x

theorem framed_of_frame {x : Go ConsensusState} (h : Frame P C cs cs') (hx : Framed P C cs' x) :
    Framed P C cs x := Meets.mono hx fun _ _ h' => h.trans h'

/-! ## The proposer -/

theorem calm_proposerByVRF (L : Libs) (hash : Bytes) (vals : List Validator) :
    (proposerByVRF L hash vals).Calm := by
  simp only [proposerByVRF]
  split
  · rfl
  · trivial

theorem calm_proposersByVRF : (proposersByVRF env now cs).Calm := by
  unfold proposersByVRF
  refine Meets.bind (calm_proposerByVRF _ _ _) fun cur _ _ => ?_
  split
  · trivial
  split
  · split
    · rfl
    · exact Meets.bind (calm_proposerByVRF _ _ _) fun last _ _ => trivial
  · trivial

theorem calm_vrfProposerIndex : (vrfProposerIndex env now cs).Calm := by
  unfold vrfProposerIndex
  split
  · trivial
  refine Meets.bind calm_proposersByVRF ?_
  rintro ⟨last, cur⟩ - -
  dsimp only
  split
  · split
    · rfl
    · trivial
  · trivial

theorem calm_proposerIndex (round : ℤ) : (proposerIndex env now cs round).Calm := by
  unfold proposerIndex
  split
  · exact Meets.bind calm_vrfProposerIndex fun _ _ _ => trivial
  split
  · rfl
  split
  · rfl
  · trivial

theorem calm_proposerByRound (round : ℤ) : (proposerByRound env now cs round).Calm := by
  unfold proposerByRound
  refine Meets.bind (calm_proposerIndex round) ?_
  rintro ⟨cs, idx⟩ - -
  dsimp only
  split
  · rfl
  split
  · rfl
  · trivial

theorem calm_updateProposer : (updateProposer env now cs).Calm := by
  unfold updateProposer
  refine Meets.bind (calm_proposerByRound _) ?_
  rintro ⟨cs, p⟩ - -
  dsimp only
  split
  · rfl
  · trivial

theorem calm_getProposer : (getProposer env now cs).Calm := by
  unfold getProposer
  split
  · split
    · exact Meets.bind calm_updateProposer fun _ _ _ => trivial
    · trivial
  · exact Meets.bind calm_updateProposer fun _ _ _ => trivial

/-- Naming the proposer of a round draws that of round `0`. -/
theorem proposerByRound_drawn {p : VRFProposer}
    (h : cs.proposerByRound env now round = .ok (cs', p)) (hdrawn : cs.Drawn) :
    cs'.Drawn ∧ 0 ≤ cs'.vrfValIndex := by
  unfold proposerByRound at h
  obtain ⟨⟨cs₁, idx⟩, hidx, h⟩ := Steps.bind_eq_ok.1 h
  dsimp only at h
  split at h
  · simp at h
  next hnonneg =>
  rw [not_lt] at hnonneg
  split at h
  · simp at h
  next val hval =>
  cases h
  unfold proposerIndex at hidx
  split at hidx
  · obtain ⟨i, -, hi⟩ := Steps.bind_eq_ok.1 hidx
    obtain ⟨rfl, rfl⟩ := Prod.mk.inj (Except.ok.inj hi)
    have hlt : i.toNat < cs.validators.size := (List.getElem?_eq_some_iff.1 hval).1
    exact ⟨⟨fun _ => by dsimp only; omega, fun hsome => ⟨hnonneg, (hdrawn.named hsome).2⟩⟩, hnonneg⟩
  split at hidx
  · simp at hidx
  next hvrf =>
  split at hidx
  · simp at hidx
  · cases hidx
    exact ⟨hdrawn, not_lt.1 hvrf⟩

theorem updateProposer_drawn {p : VRFProposer} (h : cs.updateProposer env now = .ok (cs', p)) :
    (cs.Drawn → cs'.Drawn) ∧ cs'.proposer.isSome = true := by
  unfold updateProposer at h
  obtain ⟨⟨cs₁, q⟩, hround, h⟩ := Steps.bind_eq_ok.1 h
  dsimp only at h
  split at h
  · simp at h
  next pv hpv =>
  cases h
  refine ⟨fun hdrawn => ?_, rfl⟩
  obtain ⟨hdrawn₁, hvrf⟩ := proposerByRound_drawn hround hdrawn
  exact ⟨hdrawn₁.seat, fun _ => ⟨hvrf, by simp [hpv]⟩⟩

theorem getProposer_drawn {val : Validator} (h : cs.getProposer env now = .ok (cs', val)) :
    (cs.Drawn → cs'.Drawn) ∧ cs'.proposer.isSome = true := by
  unfold getProposer at h
  split at h
  next p hp =>
    split at h
    · obtain ⟨⟨cs₁, q⟩, hq, h⟩ := Steps.bind_eq_ok.1 h
      cases h
      exact updateProposer_drawn hq
    · cases h
      exact ⟨id, by simp [hp]⟩
  · obtain ⟨⟨cs₁, q⟩, hq, h⟩ := Steps.bind_eq_ok.1 h
    cases h
    exact updateProposer_drawn hq

theorem framed_getProposer (h : P cs.round) :
    Meets GoPanic.Other (fun r => Frame P C cs r.1) (cs.getProposer env now) := by
  refine Meets.mono calm_getProposer fun r hr _ => ?_
  obtain ⟨hdrawn, hsome⟩ := @getProposer_drawn env now cs r.1 r.2 hr
  obtain ⟨p, f, i, heq⟩ := @getProposer_eq env now cs r.1 r.2 hr
  rw [heq] at hdrawn hsome ⊢
  exact ⟨rfl, rfl, rfl, rfl, rfl, rfl, hdrawn, fun _ => hsome, .inl, id, id, h, [], rfl, by simp⟩

theorem framed_isProposer (h : P cs.round) :
    Meets GoPanic.Other (fun r => Frame P C cs r.1) (cs.isProposer env now) := by
  unfold isProposer
  exact (framed_getProposer h).bind fun r _ hr => hr

/-! ## Voting -/

/-- A vote is signed for the state's own round. -/
theorem framed_signAddVote (h : P cs.round) (type_ : ℕ) (hash : Bytes) (header : PartSetHeader) :
    Framed P C cs (cs.signAddVote env now type_ hash header) := by
  unfold signAddVote
  split
  · exact .refl h
  next pv _ =>
  split
  · exact .refl h
  have hsign : Frame P C cs (cs.emit (.signVote (cs.signVote env pv type_ hash header))) :=
    .emit h ⟨cs.round, h, rfl⟩
  refine (framed_isProposer (C := C) hsign.round).bind ?_
  rintro ⟨cs₁, b⟩ - hcs₁
  have hframe := hsign.trans hcs₁
  dsimp only
  split
  · split
    · exact hframe.trans (.emit hframe.round trivial)
    · exact hframe
  · exact hframe.trans (.emit hframe.round trivial)

theorem framed_signAddVote_of (h : Frame P C cs cs') (type_ : ℕ) (hash : Bytes)
    (header : PartSetHeader) : Framed P C cs (cs'.signAddVote env now type_ hash header) :=
  framed_of_frame h (framed_signAddVote h.round type_ hash header)

theorem framed_doPrevote (h : P cs.round) : Framed P C cs (cs.doPrevote env now) := by
  unfold doPrevote
  split
  · exact (NCBlock.calm_hash _ _).bind fun hash _ _ => framed_signAddVote h _ _ _
  split
  · exact framed_signAddVote h _ _ _
  refine (NCBlock.calm_validateBasic _ _).bind fun basic _ _ => ?_
  split
  · exact framed_signAddVote h _ _ _
  split
  · exact framed_signAddVote h _ _ _
  refine (framed_isProposer (C := C) h).bind ?_
  rintro ⟨cs₁, b⟩ - hcs₁
  dsimp only
  split
  · exact framed_signAddVote_of hcs₁ _ _ _
  split
  · exact framed_signAddVote_of hcs₁ _ _ _
  · exact (NCBlock.calm_hash _ _).bind fun hash _ _ =>
      framed_signAddVote_of hcs₁ _ _ _

theorem frame_updateRoundStep (cs : ConsensusState) {step : RoundStepType} (hround : P round)
    (hstep : step ≠ .newHeight) : Frame P C cs (cs.updateRoundStep round step) :=
  ⟨rfl, rfl, rfl, rfl, rfl, rfl, fun h => ⟨h.1, h.2⟩, id, .inl, id,
      fun h => absurd h hstep, hround, [], rfl, by simp⟩

theorem frame_enterPrevoteWait (h : P cs.round) (height : ℕ) (hround : P round) :
    Frame P C cs (cs.enterPrevoteWait height round) := by
  unfold enterPrevoteWait
  split
  · exact .refl h
  · exact (Frame.emit (x := .schedule ⟨height, round, .prevoteWait⟩) h trivial).trans
      (frame_updateRoundStep _ hround (by decide))

theorem framed_enterPrevote (h : P cs.round) (height : ℕ) (hround : P round) :
    Framed P C cs (cs.enterPrevote env now height round) := by
  unfold enterPrevote
  split
  · exact .refl h
  have hvote : Framed P C cs (cs.prevoteIfComplete env now) := by
    unfold prevoteIfComplete
    split
    · exact framed_doPrevote h
    · exact .refl h
  refine hvote.bind fun cs₁ _ hcs₁ => ?_
  have hstep : Frame P C cs₁
      (if cs₁.step = .propose then cs₁.updateRoundStep round .prevote else cs₁) := by
    split
    · exact frame_updateRoundStep _ hround (by decide)
    · exact .refl hcs₁.round
  exact (hcs₁.trans hstep).trans (frame_enterPrevoteWait hstep.round height hround)

theorem frame_enterPrecommitWait (h : P cs.round) (height : ℕ) (hround : P round) :
    Frame P C cs (cs.enterPrecommitWait height round) := by
  unfold enterPrecommitWait
  split
  · exact .refl h
  · exact (Frame.emit (x := .schedule ⟨height, round, .precommitWait⟩) h trivial).trans
      (frame_updateRoundStep _ hround (by decide))

theorem framed_fetchBlock (h : P cs.round) (header : PartSetHeader) :
    Framed P C cs (cs.fetchBlock header) := by
  unfold fetchBlock
  split
  · exact .refl h
  · exact (calm_newPartSetFromHeader _).bind fun parts _ _ => .free h

theorem frame_unlock (h : P cs.round) : Frame P C cs cs.unlock :=
  .relock h fun _ _ hb => by cases hb

theorem framed_precommit (h : P cs.round) (round : ℤ) :
    Framed P C cs (cs.precommit env now round) := by
  unfold precommit
  split
  · exact framed_signAddVote h _ _ _
  split
  · rfl
  split
  · split
    · exact framed_signAddVote h _ _ _
    · exact framed_signAddVote_of (frame_unlock h) _ _ _
  refine (NCBlock.calm_hashesTo _ _ _).bind fun same _ _ => ?_
  split
  · exact framed_signAddVote_of (.free h) _ _ _
  refine (NCBlock.calm_hashesTo _ _ _).bind fun proposed _ _ => ?_
  split
  · split
    · rfl
    refine (NCBlock.calm_validateBasic _ _).bind fun basic hbasic _ => ?_
    split
    · rfl
    · refine framed_signAddVote_of (.relock h fun _ b hb => ?_) _ _ _
      exact Option.some.inj hb ▸ NCBlock.isSome_of_validateBasic hbasic
  · refine (@framed_fetchBlock P C cs.unlock h _).bind fun cs₁ _ hcs₁ => ?_
    exact framed_signAddVote_of ((frame_unlock h).trans hcs₁) _ _ _

theorem framed_enterPrecommit (h : P cs.round) (height : ℕ) (hround : P round) :
    Framed P C cs (cs.enterPrecommit env now height round) := by
  unfold enterPrecommit
  split
  · exact .refl h
  refine (framed_precommit (C := C) h round).bind fun cs₁ _ hcs₁ => ?_
  have hstep : Frame P C cs₁ (cs₁.updateRoundStep round .precommit) :=
    frame_updateRoundStep _ hround (by decide)
  exact (hcs₁.trans hstep).trans (frame_enterPrecommitWait hround height hround)

/-! ## Proposing -/

theorem frame_sendParts (parts : List (Option Part)) (h : P cs.round) :
    Frame P C cs (cs.sendParts parts) := by
  induction parts generalizing cs with
  | nil => exact .refl h
  | cons part parts ih =>
    have hsent : Frame P C cs
        (cs.sendInternalMessage (.blockPart cs.height cs.round part)) := .emit h trivial
    exact hsent.trans (ih hsent.round)

theorem framed_proposeBlock (h : P cs.round) (height : ℕ) (round : ℤ) (block : NCBlock)
    (parts : Option PartSet) :
    Framed P C cs (cs.proposeBlock env height round block parts) := by
  unfold proposeBlock
  dsimp only
  refine (NCBlock.calm_hash _ _).bind fun hash _ _ => ?_
  split
  · rfl
  split
  · rfl
  next pv _ =>
    have hsigned (x : Proposal) : Frame P C cs (cs.emit (.signProposal x)) := .emit h trivial
    have hsent (x : Proposal) : Frame P C cs
        ((cs.emit (.signProposal x)).sendInternalMessage (.proposal (some x))) :=
      (hsigned x).trans (.emit (hsigned x).round trivial)
    exact (hsent _).trans (frame_sendParts _ (hsent _).round)

theorem calm_createProposalBlock : (cs.createProposalBlock env now).Calm := by
  have hbytes : (cs.proposalEpochBytes env now).Calm := by
    unfold proposalEpochBytes
    split
    · split
      · rfl
      · trivial
    split
    · trivial
    split <;> trivial
  unfold createProposalBlock
  split
  · trivial
  split
  · trivial
  · exact hbytes.bind fun _ _ _ => trivial

theorem framed_decideProposal (h : P cs.round) (height : ℕ) (round : ℤ) :
    Framed P C cs (cs.decideProposal env now height round) := by
  unfold decideProposal
  split
  · exact framed_proposeBlock h _ _ _ _
  · refine calm_createProposalBlock.bind fun created _ _ => ?_
    split
    · exact .refl h
    · exact framed_proposeBlock h _ _ _ _

theorem framed_decideIfProposer (h : P cs.round) (height : ℕ) (round : ℤ) :
    Framed P C cs (cs.decideIfProposer env now height round) := by
  unfold decideIfProposer
  split
  · exact .refl h
  refine (framed_isProposer (C := C) h).bind ?_
  rintro ⟨cs₁, b⟩ - hcs₁
  dsimp only
  split
  · exact hcs₁
  · exact framed_of_frame hcs₁ (framed_decideProposal hcs₁.round _ _)

theorem framed_reportToMainChain (h : P cs.round) :
    Framed P C cs (cs.reportToMainChain env now) := by
  unfold reportToMainChain
  split
  · exact .refl h
  refine (framed_isProposer (C := C) h).bind ?_
  rintro ⟨cs₁, b⟩ - hcs₁
  dsimp only
  split
  · exact hcs₁
  · -- a report changes nothing but its flag in the extra data
    have hreport : ∀ (cs₂ : ConsensusState) (b : Bool) (x : Effect) (extra : TendermintExtra),
        P cs₂.round → x.Within P C → extra.chainID = cs₂.ntcExtra.chainID →
        extra.height = cs₂.ntcExtra.height →
        Frame P C cs₂ (if b then emit { cs₂ with ntcExtra := extra } x else cs₂) := by
      intro cs₂ b x extra hround hx hchain hheight
      split
      · exact ⟨rfl, rfl, hchain, hheight, rfl, rfl, fun h => ⟨h.1, h.2⟩, id, .inl, id,
          id, hround, [x], rfl, by simpa using hx⟩
      · exact .refl hround
    have hsaved := hreport cs₁ cs₁.ntcExtra.needToSave (.saveBlockToMainChain cs₁.ntcExtra.height)
      { cs₁.ntcExtra with needToSave := false } hcs₁.round trivial rfl rfl
    exact hcs₁.trans (hsaved.trans (hreport _ _ _ _ hsaved.round trivial rfl rfl))

theorem framed_enterPropose (h : P cs.round) (height : ℕ) (hround : P round) :
    Framed P C cs (cs.enterPropose env now height round) := by
  unfold enterPropose
  split
  · exact .refl h
  refine (framed_reportToMainChain (C := C) h).bind fun cs₁ _ hcs₁ => ?_
  have hcs₂ : Frame P C cs (cs₁.scheduleTimeout height round .propose) :=
    hcs₁.trans (.emit hcs₁.round trivial)
  refine (framed_decideIfProposer (C := C) hcs₂.round _ _).bind fun cs₃ _ hcs₃ => ?_
  have hcs₄ : Frame P C cs (cs₃.updateRoundStep round .propose) :=
    (hcs₂.trans hcs₃).trans (frame_updateRoundStep _ hround (by decide))
  dsimp only
  split
  · exact framed_of_frame hcs₄ (framed_enterPrevote hround _ hround)
  · exact hcs₄

theorem framed_waitOrPropose (h : P cs.round) (height : ℕ) (hround : P round) :
    Framed P C cs (cs.waitOrPropose env now height round) := by
  unfold waitOrPropose
  refine (framed_isProposer (C := C) h).bind ?_
  rintro ⟨cs₁, b⟩ - hcs₁
  dsimp only
  split
  · exact hcs₁.trans (.emit hcs₁.round trivial)
  · exact framed_of_frame hcs₁ (framed_enterPropose hcs₁.round _ hround)

theorem waitOrPropose_named {height : ℕ} (h : cs.waitOrPropose env now height round = .ok cs') :
    cs'.proposer.isSome = true := by
  unfold waitOrPropose at h
  obtain ⟨⟨cs₁, b⟩, hb, h⟩ := Steps.bind_eq_ok.1 h
  have hnamed : cs₁.proposer.isSome = true := by
    unfold isProposer at hb
    obtain ⟨⟨cs₂, val⟩, hval, hb⟩ := Steps.bind_eq_ok.1 hb
    cases hb
    exact (getProposer_drawn hval).2
  dsimp only at h
  split at h
  · cases h
    exact hnamed
  · exact ((framed_enterPropose (P := fun _ => True) (C := fun _ => True) trivial height
      trivial).of_eq_ok h).proposer hnamed

theorem framed_acceptProposal (h : P cs.round) (hnamed : cs.proposer.isSome = true)
    (proposal : Proposal) : Framed P C cs (cs.acceptProposal proposal) := by
  unfold acceptProposal
  exact (calm_newPartSetFromHeader _).bind fun parts _ _ =>
    ⟨rfl, rfl, rfl, rfl, rfl, rfl, fun h => ⟨h.1, h.2⟩, id, fun _ => .inr hnamed, id, id, h, [],
      rfl, by simp⟩

/-! ## Committing -/

/-- What `finalizeCommit` can hand over in this state has the property `C`. -/
def HandsOver (env : Env) (C : NCBlock → Prop) (cs : ConsensusState) : Prop :=
  ∀ r s block extra, cs.voteSignAggr.precommits r = some s → block.ntcExtra = some extra →
    extra.chainID = cs.ntcExtra.chainID → extra.height = (cs.ntcExtra.height + 1) % 2 ^ 64 →
    NCBlock.hashesTo env.libs (some block) s.maj23.hash = .ok true →
    C (committedBlock env block extra s.makeCommit)

theorem HandsOver.of_frame (h : HandsOver env C cs) (hf : Frame P C cs cs') :
    HandsOver env C cs' := by
  intro r s block extra hs hextra hchain hheight hhash
  rw [hf.voteSignAggr] at hs
  exact h r s block extra hs hextra (hchain.trans hf.chainID)
    (by rw [hheight, hf.extraHeight]) hhash

theorem framed_finalizeCommit (h : P cs.round) (hC : HandsOver env C cs) (height : ℕ) :
    Framed P C cs (cs.finalizeCommit env height) := by
  unfold finalizeCommit
  split
  · exact .refl h
  split
  · rfl
  next blockID hmaj =>
  split
  · rfl
  refine (NCBlock.calm_hashesTo _ _ _).bind fun hashes hhash _ => ?_
  split
  · rfl
  next htrue =>
  split
  · rfl
  next block hblock =>
  refine (NCBlock.calm_validateBasic _ _).bind fun basic hbasic _ => ?_
  split
  · rfl
  next hvalid =>
  split
  next extra s hextra hs =>
    split
    · obtain ⟨s', hs', hmaj', -⟩ := twoThirdsMajority_eq_true hmaj
      obtain rfl := Option.some.inj (hs.symm.trans hs')
      simp only [Bool.not_eq_true', Bool.not_eq_false] at htrue hvalid
      rw [htrue, hblock, ← hmaj'] at hhash
      simp only [NCBlock.validateBasic, hextra, hvalid, Except.ok.injEq, Bool.and_eq_true,
        beq_iff_eq] at hbasic
      have hover := hC _ s block extra hs hextra hbasic.1 hbasic.2 hhash
      refine ⟨rfl, rfl, rfl, rfl, rfl, rfl, fun h => ⟨h.1, h.2⟩, id, .inl, fun hlock b hb => ?_, id, h, [_],
        rfl, by simpa [Effect.Within] using hover⟩
      simp only [emit] at hb
      split at hb
      · exact Option.some.inj hb ▸ rfl
      · exact hlock b hb
    · exact .refl h
  · rfl

theorem framed_tryFinalizeCommit (h : P cs.round) (hC : HandsOver env C cs) (height : ℕ) :
    Framed P C cs (cs.tryFinalizeCommit env height) := by
  unfold tryFinalizeCommit
  split
  · rfl
  split
  · exact .refl h
  split
  · exact .refl h
  refine (NCBlock.calm_hashesTo _ _ _).bind fun hashes _ _ => ?_
  split
  · split
    · rfl
    next block _ =>
    have hemit : Frame P C cs (cs.emit (.finalizeCommit block)) := .emit h trivial
    exact framed_of_frame hemit (framed_finalizeCommit hemit.round (hC.of_frame hemit) height)
  · exact .refl h

theorem framed_enterCommit (h : P cs.round) (hC : HandsOver env C cs) (height : ℕ)
    (commitRound : ℤ) : Framed P C cs (cs.enterCommit env height commitRound) := by
  unfold enterCommit
  split
  · exact .refl h
  split
  · rfl
  refine (NCBlock.calm_hashesTo _ _ _).bind fun locked _ _ => ?_
  have hlocked : Frame P C cs (if locked then
      { cs with proposalBlock := cs.lockedBlock, proposalBlockParts := cs.lockedBlockParts }
      else cs) := by
    split
    · exact .free h
    · exact .refl h
  refine (NCBlock.calm_hashesTo _ _ _).bind fun proposed _ _ => ?_
  refine Meets.bind (Q := Frame P C cs) ?_ fun cs₁ _ hcs₁ => ?_
  · split
    · exact hlocked
    · exact framed_of_frame hlocked (framed_fetchBlock hlocked.round _)
  · have hcommit : Frame P C cs { cs₁ with step := .commit, commitRound := commitRound } :=
      hcs₁.trans ⟨rfl, rfl, rfl, rfl, rfl, rfl, fun h => ⟨h.1, h.2⟩, id, .inl, id,
          fun h => by simp at h, hcs₁.round, [], rfl, by simp⟩
    exact framed_of_frame hcommit (framed_tryFinalizeCommit hcommit.round (hC.of_frame hcommit) _)

/-! ## Messages -/

theorem framed_addProposalBlockPart (h : P cs.round) (hC : HandsOver env C cs) (height : ℕ)
    (round : ℤ) (part : Option Part) (verify : Bool) :
    Meets GoPanic.Other (fun r => Frame P C cs r.1)
      (cs.addProposalBlockPart env now height round part verify) := by
  unfold addProposalBlockPart
  split
  · exact .refl h
  split
  · exact .refl h
  · rfl
  refine (PartSet.calm_addPart _ _ _ _).bind ?_
  rintro ⟨parts', added, err⟩ - -
  dsimp only
  have hparts : Frame P C cs { cs with proposalBlockParts := some parts' } := .free h
  split
  · exact hparts
  split
  · have hblock : Frame P C cs { cs with
        proposalBlockParts := some parts', proposalBlock := env.fromBytes parts'.bytes } := .free h
    refine Meets.bind (Q := Frame P C cs) ?_ fun cs₁ _ hcs₁ => hcs₁
    refine framed_of_frame hblock ?_
    unfold onBlock
    split
    · exact framed_enterPrevote hblock.round _ hblock.round
    split
    · exact framed_tryFinalizeCommit hblock.round (hC.of_frame hblock) _
    · exact .refl hblock.round
  · exact hparts

theorem framed_recordPrevoteMaj23 (h : P cs.round) (s : SignAggr) :
    Framed P C cs (cs.recordPrevoteMaj23 env s) := by
  have hrecord : Frame P C cs { cs with prevoteMaj23SignAggr := some s } := .free h
  unfold recordPrevoteMaj23
  dsimp only
  split
  · refine (NCBlock.calm_hashesTo _ _ _).bind fun same _ _ => ?_
    split
    · exact hrecord
    · exact hrecord.trans (frame_unlock hrecord.round)
  · exact hrecord

theorem frame_sendMaj23SignAggr (h : P cs.round) (voteType : ℕ) :
    Frame P C cs (cs.sendMaj23SignAggr env voteType) := by
  unfold sendMaj23SignAggr
  dsimp only
  split
  · split
    · exact .refl h
    next signature _ =>
    have hmade (x : SignAggr) : Frame P C cs (cs.emit (.signAggr x)) := .emit h trivial
    have hsent (x : SignAggr) : Frame P C cs
        ((cs.emit (.signAggr x)).sendInternalMessage (.maj23SignAggr (some x))) :=
      (hmade x).trans (.emit (hmade x).round trivial)
    exact .ite (.refl h) (hsent _)
  · exact .refl h

/-! ## One input

An input changes the two height sets at most once: a round is opened, the validator goes back
to a lower round, an aggregate is stored or a vote is counted.  What follows stays within the
frame. -/

/-- The state in which `enterNewRound` goes on. -/
def openRound (cs : ConsensusState) (round : ℤ) : Go ConsensusState := do
  let cs := cs.updateRoundStep round .newRound
  let cs := if round = 0 then cs else cs.clearRound
  let voteSignAggr ← cs.voteSignAggr.setRound (wrapInt (round + 1))
  let votes ← cs.votes.setRound (wrapInt (round + 1))
  .ok { cs with
    voteSignAggr := voteSignAggr
    votes := votes
    pastRoundStates := cs.pastRoundStates.insert round roundNotProposed }

/-- The state in which `enterLowerRound` goes on. -/
def lowerRound (cs : ConsensusState) (round : ℤ) : Go ConsensusState := do
  let past := (countUp (round + 1) cs.round).foldl (fun m r => m.erase r) cs.pastRoundStates
  let cs := ({ cs with pastRoundStates := past }.updateRoundStep round .newRound).clearRound
  let voteSignAggr ← cs.voteSignAggr.resetTop2Round (wrapInt (round + 1))
  let votes ← cs.votes.resetTop2Round (wrapInt (round + 1))
  .ok { cs with voteSignAggr := voteSignAggr, votes := votes }

theorem enterNewRound_eq (cs : ConsensusState) (height : ℕ) (round : ℤ) :
    cs.enterNewRound env now height round =
      if cs.height ≠ height ∨ round < cs.round ∨ (cs.round = round ∧ cs.step ≠ .newHeight) then
        .ok cs
      else cs.openRound round >>= fun cs => cs.waitOrPropose env now height round := by
  unfold enterNewRound openRound
  split
  · rfl
  · simp only [bind_assoc]
    rfl

theorem enterLowerRound_eq (cs : ConsensusState) (height : ℕ) (round : ℤ) :
    cs.enterLowerRound env now height round =
      cs.lowerRound round >>= fun cs => cs.waitOrPropose env now height round := by
  unfold enterLowerRound lowerRound
  simp only [bind_assoc]
  rfl

theorem lowerRound_nonneg (hint : IsInt round) (h : cs.lowerRound round = .ok cs') : 0 ≤ round := by
  unfold lowerRound at h
  obtain ⟨aggrs, haggrs, h⟩ := Steps.bind_eq_ok.1 h
  unfold HeightVoteSignAggr.resetTop2Round at haggrs
  split at haggrs
  · simp at haggrs
  next hpos =>
  have hpos : 1 ≤ wrapInt (round + 1) := by simpa using (not_or.1 hpos).2
  by_contra hneg
  have hsmall : IsInt (round + 1) := by
    rw [isInt_iff] at hint ⊢
    omega
  rw [wrapInt_of_isInt hsmall] at hpos
  omega

theorem enterLowerRound_nonneg {height : ℕ} (hint : IsInt round)
    (h : cs.enterLowerRound env now height round = .ok cs') : 0 ≤ round := by
  rw [enterLowerRound_eq] at h
  obtain ⟨cs₁, hlow, -⟩ := Steps.bind_eq_ok.1 h
  exact lowerRound_nonneg hint hlow

/-- A change of the height sets into a state with the property `Q`, if there is one, and then
a change within the frame.  `P` relates the round of a state to the rounds of its votes. -/
def Follows (Q : ConsensusState → Prop) (P : ℤ → ℤ → Prop) (C : NCBlock → Prop)
    (cs cs' : ConsensusState) : Prop :=
  ∃ cs₁, (cs₁ = cs ∨ Q cs₁) ∧ Frame (P cs₁.round) C cs₁ cs'

section Follows

variable {E : GoPanic → Prop} {Q : ConsensusState → Prop} {P : ℤ → ℤ → Prop}

theorem meets_of_other {α : Type} {R : α → Prop} {x : Go α} (hE : ∀ p : GoPanic, p.Other → E p)
    (h : Meets GoPanic.Other R x) : Meets E R x := by
  cases x with
  | error p => exact hE p h
  | ok a => exact h

theorem follows_of_framed {x : Go ConsensusState} (hE : ∀ p : GoPanic, p.Other → E p)
    (h : Framed (P cs.round) C cs x) : Meets E (Follows Q P C cs) x :=
  meets_of_other hE (h.mono fun _ _ hf => ⟨cs, .inl rfl, hf⟩)

theorem follows_of_framed_after {cs₁ : ConsensusState} {x : Go ConsensusState}
    (hE : ∀ p : GoPanic, p.Other → E p) (hQ : Q cs₁) (h : Framed (P cs₁.round) C cs₁ x) :
    Meets E (Follows Q P C cs) x :=
  meets_of_other hE (h.mono fun _ _ hf => ⟨cs₁, .inr hQ, hf⟩)

variable (hE : ∀ p : GoPanic, p.Other → E p) (hP : ∀ r, P r r)

include hE hP

theorem enterNewRound_follows {height : ℕ} {round : ℤ}
    (hopen : cs.round ≤ round → (cs.round = round → cs.step = .newHeight) →
      Meets E (fun cs₁ => Q cs₁ ∧ cs₁.round = round) (cs.openRound round)) :
    Meets E (Follows Q P C cs) (cs.enterNewRound env now height round) := by
  rw [enterNewRound_eq]
  split
  · exact ⟨cs, .inl rfl, .refl (hP _)⟩
  next hguard =>
  push Not at hguard
  obtain ⟨-, hle, hstep⟩ := hguard
  refine (hopen hle hstep).bind fun cs₁ _ hcs₁ => ?_
  exact follows_of_framed_after hE hcs₁.1
    (framed_waitOrPropose (hP _) height (hcs₁.2 ▸ hP _))

theorem handleTimeout_follows {ti : TimeoutInfo}
    (htimeout : cs.round ≤ ti.round → P cs.round ti.round)
    (hopen : ∀ round, ti.step = .newHeight ∧ round = 0 ∨
        ti.step = .precommitWait ∧ cs.round ≤ ti.round ∧ round = wrapInt (ti.round + 1) →
      cs.round ≤ round → (cs.round = round → cs.step = .newHeight) →
      Meets E (fun cs₁ => Q cs₁ ∧ cs₁.round = round) (cs.openRound round)) :
    Meets E (Follows Q P C cs) (cs.handleTimeout env now ti) := by
  unfold handleTimeout
  split
  · exact ⟨cs, .inl rfl, .refl (hP _)⟩
  next hguard =>
  push Not at hguard
  have hle := hguard.2.1
  split
  · exact enterNewRound_follows hE hP (hopen 0 (.inl ⟨‹_›, rfl⟩))
  · exact follows_of_framed hE (framed_enterPropose (hP _) _ (htimeout hle))
  · exact follows_of_framed hE (framed_enterPrevote (hP _) _ (htimeout hle))
  · exact follows_of_framed hE (framed_enterPrecommit (hP _) _ (htimeout hle))
  · exact enterNewRound_follows hE hP (hopen _ (.inr ⟨‹_›, hle, rfl⟩))
  · exact hE _ rfl

theorem setProposal_follows {proposal : Option Proposal}
    (hlower : ∀ x i, proposal = some x → x.round < cs.round →
      (cs.Drawn → Drawn { cs with vrfValIndex := i }) →
      Meets E (fun cs₁ => Q cs₁ ∧ cs₁.round = x.round)
        (lowerRound { cs with vrfValIndex := i } x.round)) :
    Meets E (fun r => Follows Q P C cs r.1) (cs.setProposal env now proposal) := by
  have hsame : Follows Q P C cs cs := ⟨cs, .inl rfl, .refl (hP _)⟩
  unfold setProposal
  split
  · exact hsame
  split
  · exact hE _ rfl
  next x =>
  split
  · exact hsame
  next hheight =>
  split
  · exact hsame
  split
  · exact hsame
  split
  · refine (meets_of_other hE (framed_getProposer (C := C) (hP cs.round))).bind ?_
    rintro ⟨cs₁, val⟩ hval hcs₁
    dsimp only
    split
    · exact ⟨cs, .inl rfl, hcs₁⟩
    · have hnamed := (getProposer_drawn hval).2
      exact (meets_of_other hE (framed_acceptProposal (C := C) hcs₁.round hnamed x)).bind
        fun cs₂ _ hcs₂ => ⟨cs, .inl rfl, hcs₁.trans hcs₂⟩
  next hround =>
  refine (meets_of_other hE (calm_proposerByRound x.round)).bind ?_
  rintro ⟨cs₁, val⟩ hval -
  have hdrawn : cs.Drawn → cs₁.Drawn := fun h => (proposerByRound_drawn hval h).1
  obtain ⟨i, rfl⟩ := proposerByRound_eq hval
  have hframe : Follows Q P C cs { cs with vrfValIndex := i } :=
    ⟨cs, .inl rfl, rfl, rfl, rfl, rfl, rfl, rfl, hdrawn, id, .inl, id, id, hP _, [], rfl, by simp⟩
  dsimp only
  split
  · exact hframe
  split
  · exact hframe
  have hlow : x.round < cs.round := lt_of_le_of_ne (not_lt.1 fun h => hheight (.inr h)) hround
  rw [enterLowerRound_eq, bind_assoc]
  refine (hlower x i rfl hlow hdrawn).bind fun cs₂ _ hcs₂ => ?_
  refine (meets_of_other hE (framed_waitOrPropose (C := C) (hP cs₂.round) _
    (hcs₂.2 ▸ hP _))).bind fun cs₃ hwait hcs₃ => ?_
  have hnamed := waitOrPropose_named hwait
  exact (meets_of_other hE (framed_acceptProposal (C := C) hcs₃.round hnamed x)).bind
    fun cs₄ _ hcs₄ => ⟨cs₂, .inr hcs₂.1, hcs₃.trans hcs₄⟩

theorem setMaj23SignAggr_follows {s : SignAggr}
    (haggr : Verified env.libs cs.height cs.validators s →
      Q { cs with voteSignAggr := cs.voteSignAggr.addSignAggr s })
    (hC : ∀ cs₁, Q cs₁ → HandsOver env C cs₁) :
    Meets E (fun r => Follows Q P C cs r.1) (cs.setMaj23SignAggr env now s) := by
  have hsame : Follows Q P C cs cs := ⟨cs, .inl rfl, .refl (hP _)⟩
  unfold setMaj23SignAggr
  split
  · exact hsame
  next hheight =>
  split
  · exact hsame
  next hverify =>
  split
  · exact hsame
  next htype =>
  have hQ := haggr ⟨not_not.1 hheight, not_not.1 hverify, by simpa using htype⟩
  obtain ⟨cs₁, hcs₁⟩ : ∃ cs₁, cs₁ = { cs with voteSignAggr := cs.voteSignAggr.addSignAggr s } :=
    ⟨_, rfl⟩
  rw [← hcs₁] at hQ ⊢
  have hafter : ∀ {cs₂}, Frame (P cs₁.round) C cs₁ cs₂ → Follows Q P C cs cs₂ :=
    fun hf => ⟨cs₁, .inr hQ, hf⟩
  dsimp only
  split
  · exact hafter (.refl (hP _))
  split
  · split
    · exact hafter (.refl (hP _))
    · refine (meets_of_other hE (framed_recordPrevoteMaj23 (C := C) (hP cs₁.round) s)).bind
        fun cs₂ _ hcs₂ => ?_
      split
      · exact (meets_of_other hE (framed_enterPrecommit (C := C) hcs₂.round _ hcs₂.round)).bind
          fun cs₃ _ hcs₃ => hafter (hcs₂.trans hcs₃)
      · exact hafter hcs₂
  · split
    · exact hafter (.refl (hP _))
    · have hrecord : Frame (P cs₁.round) C cs₁ { cs₁ with precommitMaj23SignAggr := some s } :=
        .free (hP _)
      split
      · exact (meets_of_other hE (framed_enterCommit (C := C) hrecord.round
          ((hC cs₁ hQ).of_frame hrecord) _ _)).bind
          fun cs₃ _ hcs₃ => hafter (hrecord.trans hcs₃)
      · exact hafter hrecord

theorem addVote_follows {vote : Option Vote} {peerKey : String}
    (hvote : ∀ x p f i, vote = some x → ofUint64 x.round = cs.round →
      (cs.Drawn → Drawn { cs with proposer := p, isProposerFlag := f, vrfValIndex := i }) →
      (cs.proposer.isSome = true → p.isSome = true) →
      Meets E (fun r => Q { cs with
        proposer := p, isProposerFlag := f, vrfValIndex := i, votes := r.1 })
        (cs.votes.addVote env.libs x peerKey)) :
    Meets E (fun r => Follows Q P C cs r.1) (cs.addVote env now vote peerKey) := by
  unfold addVote
  refine (meets_of_other hE (framed_isProposer (C := C) (hP cs.round))).bind ?_
  rintro ⟨cs₁, b⟩ hb hcs₁
  obtain ⟨p, f, i, rfl⟩ := isProposer_eq hb
  dsimp only
  split
  · exact ⟨cs, .inl rfl, hcs₁⟩
  split
  · exact hE _ rfl
  next x =>
  split
  · exact ⟨cs, .inl rfl, hcs₁⟩
  next hguard =>
  push Not at hguard
  refine meets_ite (fun _ => ⟨cs, .inl rfl, hcs₁⟩) fun _ => ?_
  refine (hvote x p f i rfl hguard.2 hcs₁.drawn hcs₁.proposer).bind ?_
  rintro ⟨votes, added, err⟩ - hQ
  refine ⟨_, .inr hQ, ?_⟩
  exact .ite (frame_sendMaj23SignAggr (hP _) _) (.refl (hP _))

/-- **What one input does**: it changes the height sets at most once, into a state with the
property `Q`, and then stays within the frame. -/
theorem handle_follows {input : ℤ × Event} (hC : HandsOver env C cs)
    (hQ : ∀ cs₁, Q cs₁ → HandsOver env C cs₁)
    (htimeout : ∀ ti, input.2 = .timeout ti → cs.round ≤ ti.round → P cs.round ti.round)
    (hopen : ∀ ti round, input.2 = .timeout ti → ti.step = .newHeight ∧ round = 0 ∨
        ti.step = .precommitWait ∧ cs.round ≤ ti.round ∧ round = wrapInt (ti.round + 1) →
      cs.round ≤ round → (cs.round = round → cs.step = .newHeight) →
      Meets E (fun cs₁ => Q cs₁ ∧ cs₁.round = round) (cs.openRound round))
    (hlower : ∀ x key i, input.2 = .msg (.proposal (some x)) key → x.round < cs.round →
      (cs.Drawn → Drawn { cs with vrfValIndex := i }) →
      Meets E (fun cs₁ => Q cs₁ ∧ cs₁.round = x.round)
        (lowerRound { cs with vrfValIndex := i } x.round))
    (haggr : ∀ s key, input.2 = .msg (.maj23SignAggr (some s)) key →
      Verified env.libs cs.height cs.validators s →
      Q { cs with voteSignAggr := cs.voteSignAggr.addSignAggr s })
    (hvote : ∀ x key p f i, input.2 = .msg (.vote (some x)) key → ofUint64 x.round = cs.round →
      (cs.Drawn → Drawn { cs with proposer := p, isProposerFlag := f, vrfValIndex := i }) →
      (cs.proposer.isSome = true → p.isSome = true) →
      Meets E (fun r => Q { cs with
        proposer := p, isProposerFlag := f, vrfValIndex := i, votes := r.1 })
        (cs.votes.addVote env.libs x key)) :
    Meets E (Follows Q P C cs) (cs.handle env input) := by
  have hsame : Follows Q P C cs cs := ⟨cs, .inl rfl, .refl (hP _)⟩
  obtain ⟨now, event⟩ := input
  cases event with
  | msg msg key =>
    simp only [handle]
    unfold handleMsg
    split
    next proposal =>
      exact (setProposal_follows hE hP fun x i hx => hlower x key i (by rw [hx])).map
        fun _ _ h => h
    · exact (meets_of_other hE (framed_addProposalBlockPart (hP cs.round) hC _ _ _ _)).map
        fun _ _ h => ⟨cs, .inl rfl, h⟩
    · exact hsame
    next s =>
      split
      · exact (setMaj23SignAggr_follows hE hP (haggr s key rfl) hQ).map fun _ _ h => h
      · exact hsame
    next vote =>
      exact (addVote_follows hE hP fun x p f i hx => hvote x key p f i (by rw [hx])).map
        fun _ _ h => h
  | timeout ti =>
    exact handleTimeout_follows hE hP (htimeout ti rfl) fun round => hopen ti round rfl
  | miner block =>
    refine ⟨cs, .inl rfl, ?_⟩
    unfold setBlockFromMiner
    split
    · exact .free (hP _)
    · exact .refl (hP _)
  | gossip kind =>
    simp only [handle]
    split
    · exact hsame
    · exact ⟨cs, .inl rfl, .emit (hP _) trivial⟩

end Follows

end ConsensusState

end Consensus

end LigoChain
