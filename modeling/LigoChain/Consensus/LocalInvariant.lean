/-
# What one validator keeps invariant

Invariants of the protocol state of a validator that never goes back to a lower round,
each proved for one move and so for every input (`Consensus/HandlerMoves.lean`):

* `RoundInv`: the round is an `int` and not negative, and no timeout is of a later round;
* `PartsInv`: before the precommit of a round, a block is only there with its proposal and
  all its parts;
* `SignedInv`: the votes signed so far are of this height and of no later round, one for
  each round and type; `ProposedInv` is the same for proposals;
* `LockInv`: a lock is of no later round, and of the current round only after the
  precommit.

The votes and proposals signed are read off the effects, where the code puts them and
never looks at them again: that the step of the round keeps a second vote from being
signed is what `SignedInv` says.
-/

import LigoChain.Consensus.HandlerMoves

namespace LigoChain

namespace Consensus

open GoInt

variable {new : List Effect} {x : Effect} {blockID : BlockID} {type_ : ℕ}

/-! ## What the effects hold -/

/-- The vote that an effect signs. -/
def Effect.signedVote : Effect → Option Vote
  | .signVote vote => some vote
  | _ => none

/-- The proposal that an effect signs. -/
def Effect.signedProposal : Effect → Option Proposal
  | .signProposal proposal => some proposal
  | _ => none

/-- The timeout that an effect schedules. -/
def Effect.timeout : Effect → Option TimeoutInfo
  | .schedule ti => some ti
  | _ => none

/-- The votes a validator has signed, the newest first. -/
def View.signedVotes (v : View) : List Vote := v.out.filterMap Effect.signedVote

/-- The proposals a validator has signed, the newest first. -/
def View.signedProposals (v : View) : List Proposal := v.out.filterMap Effect.signedProposal

/-- The timeouts a validator has scheduled, the newest first. -/
def View.timeouts (v : View) : List TimeoutInfo := v.out.filterMap Effect.timeout

theorem Effect.signedVote_eq_some {vote : Vote} : x.signedVote = some vote ↔ x = .signVote vote := by
  cases x <;> simp [Effect.signedVote]

theorem Effect.signedProposal_eq_some {proposal : Proposal} :
    x.signedProposal = some proposal ↔ x = .signProposal proposal := by
  cases x <;> simp [Effect.signedProposal]

theorem Effect.timeout_eq_some {ti : TimeoutInfo} : x.timeout = some ti ↔ x = .schedule ti := by
  cases x <;> simp [Effect.timeout]

theorem View.mem_signedVotes {v : View} {vote : Vote} :
    vote ∈ v.signedVotes ↔ .signVote vote ∈ v.out := by
  simp [View.signedVotes, Effect.signedVote_eq_some]

theorem View.mem_signedProposals {v : View} {proposal : Proposal} :
    proposal ∈ v.signedProposals ↔ .signProposal proposal ∈ v.out := by
  simp [View.signedProposals, Effect.signedProposal_eq_some]

theorem View.mem_timeouts {v : View} {ti : TimeoutInfo} :
    ti ∈ v.timeouts ↔ .schedule ti ∈ v.out := by
  simp [View.timeouts, Effect.timeout_eq_some]

theorem Effect.benign_signs (h : x.benign = true) :
    x.signedVote = none ∧ x.signedProposal = none := by
  cases x <;> simp_all [Effect.benign, Effect.signedVote, Effect.signedProposal]

theorem filterMap_benign (h : ∀ x ∈ new, x.benign = true) :
    new.filterMap Effect.signedVote = [] ∧ new.filterMap Effect.signedProposal = [] := by
  simp only [List.filterMap_eq_nil_iff]
  exact ⟨fun x hx => (Effect.benign_signs (h x hx)).1, fun x hx => (Effect.benign_signs (h x hx)).2⟩

theorem Voted.signs {v : View} (h : Voted v type_ blockID new) :
    (new.filterMap Effect.signedVote = [] ∨
      ∃ vote, IsVote v type_ blockID vote ∧ new.filterMap Effect.signedVote = [vote]) ∧
    new.filterMap Effect.signedProposal = [] := by
  cases h with
  | abstained => exact ⟨.inl rfl, rfl⟩
  | signed vote h => exact ⟨.inr ⟨vote, h, rfl⟩, rfl⟩
  | toProposer vote peerKey h => exact ⟨.inr ⟨vote, h, rfl⟩, rfl⟩
  | toSelf vote h => exact ⟨.inr ⟨vote, h, rfl⟩, rfl⟩

theorem Proposed.signs {v : View} (h : Proposed v new) :
    (new.filterMap Effect.signedProposal = [] ∨
      ∃ proposal : Proposal, proposal.height = v.height ∧ proposal.round = v.round ∧
        new.filterMap Effect.signedProposal = [proposal]) ∧
    new.filterMap Effect.signedVote = [] := by
  cases h with
  | nothing => exact ⟨.inl rfl, rfl⟩
  | signed proposal sent hsent hheight hround =>
    obtain ⟨hvote, hproposal⟩ := filterMap_benign hsent
    simp only [List.filterMap_append, hvote, hproposal]
    exact ⟨.inr ⟨proposal, hheight, hround, rfl⟩, rfl⟩

variable {L : Libs} {e : Event} {v v' : View}

theorem Moves.preserves {I : View → Prop} (hmove : ∀ v v', Move L e v v' → I v → I v')
    (h : Moves L e v v') (hv : I v) : I v' := by
  induction h with
  | refl => exact hv
  | tail _ hstep ih => exact hmove _ _ hstep ih

/-! ## What a move adds to the effects -/

/-- What an effect among those that a move adds says of the state in which the move starts. -/
def Effect.From (L : Libs) (v : View) (new : List Effect) : Effect → Prop
  | .schedule ti => ti.round = v.round
  | .signVote vote => ∃ type_ blockID, IsVote v type_ blockID vote
  | .vote2Proposer vote _ => .signVote vote ∈ new
  | .internal (.vote (some vote)) => .signVote vote ∈ new
  | .internal (.maj23SignAggr (some s)) => Formed v s
  | .signAggr s => Formed v s
  | .gossip (.vote _) => False
  | .gossip (.maj23SignAggr (some s)) =>
    ∃ r, v.voteSignAggr.prevotes r = some s ∨ v.voteSignAggr.precommits r = some s
  | .finalizeCommit block => ∃ s, v.voteSignAggr.precommits v.commitRound = some s ∧
    NCBlock.hashesTo L (some block) s.maj23.hash = .ok true
  | _ => True

theorem Effect.from_of_benign (h : x.benign = true) : x.From L v new := by
  cases x with
  | internal msg | gossip msg => cases msg <;> trivial
  | _ => trivial

/-- The effects of a vote, after the timeouts of the round. -/
theorem Voted.adds {new timeouts : List Effect} (h : Voted v type_ blockID new)
    (htimeouts : ∀ t ∈ timeouts, ∃ step, t = .schedule ⟨v.height, v.round, step⟩) :
    ∀ x ∈ timeouts ++ new, x.From L v (timeouts ++ new) := by
  intro x hx
  rcases List.mem_append.1 hx with hx | hx
  · obtain ⟨step, rfl⟩ := htimeouts x hx
    exact rfl
  cases h with
  | abstained => cases hx
  | signed vote hvote =>
    obtain rfl := List.mem_singleton.1 hx
    exact ⟨_, _, hvote⟩
  | toProposer vote peerKey hvote | toSelf vote hvote =>
    rcases List.mem_cons.1 hx with rfl | hx
    · exact List.mem_append_right _ (by simp)
    · obtain rfl := List.mem_singleton.1 hx
      exact ⟨_, _, hvote⟩

theorem Proposed.adds (h : Proposed v new) : ∀ x ∈ new, x.From L v new := by
  intro x hx
  cases h with
  | nothing => cases hx
  | signed proposal sent hsent =>
    rcases List.mem_append.1 hx with hx | hx
    · exact Effect.from_of_benign (hsent x hx)
    · obtain rfl := List.mem_singleton.1 hx
      trivial

/-- **The effects that a move adds.** -/
theorem Move.adds (h : Move L e v v') :
    ∃ new, v'.out = new ++ v.out ∧ ∀ x ∈ new, x.From L v new := by
  cases h with
  | countVote | startRound | enterRound | acceptProposal | addPart | completeBlock | storeAggr
  | recordPrevotes | unlockByPrevotes | recordPrecommits | commit => exact ⟨[], rfl, by simp⟩
  | emit effect h => exact ⟨[effect], rfl, by simpa using Effect.from_of_benign h⟩
  | schedule | prevoteWait => exact ⟨[_], rfl, by simp [Effect.From]⟩
  | gossipAggr r s h => exact ⟨[_], rfl, by simpa [Effect.From] using ⟨r, h⟩⟩
  | sendAggr s h => exact ⟨[_, _], rfl, by simp [Effect.From, h]⟩
  | propose new hstep h => exact ⟨new, rfl, h.adds⟩
  | completeAndPrevote parts parts' block blockID new timeouts hparts hcount htotal hfull hproposal
      hstep hvoted hlock htimeouts =>
    exact ⟨timeouts ++ new, (List.append_assoc ..).symm,
      hvoted.adds fun t ht => ⟨_, htimeouts t ht⟩⟩
  | prevote blockID new hstep hproposal hblock hvoted | precommitNil new hstep hvoted
  | precommitUnlock s block parts new hstep hpolka hother hvoted
  | precommitRelock s new hstep hpolka hsame hvoted
  | precommitLock s block new hstep hpolka hother hblock hsame hvoted =>
    exact ⟨[_] ++ new, rfl, hvoted.adds fun t ht => ⟨_, List.mem_singleton.1 ht⟩⟩
  | finalize s block proposalBlock lockedBlock new he hstep hcommit hblock hlock hnew =>
    refine ⟨new ++ [.finalizeCommit block], by simp, fun x hx => ?_⟩
    rcases List.mem_append.1 hx with hx | hx
    · exact Effect.from_of_benign (hnew x hx)
    · obtain rfl := List.mem_singleton.1 hx
      exact ⟨s, hcommit, hblock⟩

theorem Move.out_subset (h : Move L e v v') : v.out ⊆ v'.out := by
  obtain ⟨new, hout, -⟩ := h.adds
  rw [hout]
  exact List.subset_append_right _ _

/-- A move goes on in its round, or to a later one. -/
theorem Move.forward (h : Move L e v v') :
    v.round < v'.round ∨ v'.round = v.round ∧ v.step.val ≤ v'.step.val := by
  cases h with
  | enterRound round aggrs votes he hround => exact .inl hround
  | startRound aggrs votes he hstep =>
    exact .inr ⟨rfl, show _ ≤ RoundStepType.newRound.val by rw [hstep]; decide⟩
  | propose new hstep | prevoteWait hstep | commit commitRound block parts hstep =>
    exact .inr ⟨rfl, hstep.le⟩
  | prevote blockID new hstep =>
    exact .inr ⟨rfl, hstep.trans (show _ ≤ RoundStepType.prevoteWait.val by decide)⟩
  | completeAndPrevote parts parts' block blockID new timeouts hparts hcount htotal hfull hproposal
      hstep => exact .inr ⟨rfl, hstep⟩
  | precommitNil new hstep | precommitUnlock s block parts new hstep
  | precommitRelock s new hstep | precommitLock s block new hstep =>
    exact .inr ⟨rfl, hstep.le.trans (show _ ≤ RoundStepType.precommitWait.val by decide)⟩
  | _ => exact .inr ⟨rfl, le_rfl⟩

/-! ## Rounds and timeouts -/

/-- The round is an `int` that is not negative, and no timeout is of a later round. -/
structure RoundInv (v : View) : Prop where
  nonneg : 0 ≤ v.round
  isInt : IsInt v.round
  timeouts : ∀ ti ∈ v.timeouts, ti.round ≤ v.round

theorem Move.timeouts (h : Move L e v v') {ti : TimeoutInfo} (hti : ti ∈ v'.timeouts) :
    ti ∈ v.timeouts ∨ ti.round = v.round := by
  obtain ⟨new, hout, hnew⟩ := h.adds
  rw [View.mem_timeouts, hout, List.mem_append] at hti
  exact hti.symm.imp View.mem_timeouts.2 (hnew _)

theorem Move.roundInv (h : Move L e v v') (hv : RoundInv v) : RoundInv v' where
  nonneg := hv.nonneg.trans h.round_le
  isInt := by
    cases h with
    | enterRound round aggrs votes he hround hint => exact hint
    | _ => exact hv.isInt
  timeouts := by
    intro ti hti
    rcases h.timeouts hti with hold | heq
    · exact (hv.timeouts ti hold).trans h.round_le
    · exact heq.le.trans h.round_le

/-! ## The proposed block -/

/-- The proposal is there with all the parts of its block. -/
def View.Ready (v : View) : Prop :=
  v.proposal.isSome = true ∧ ∃ parts, v.proposalBlockParts = some parts ∧ parts.total ≤ parts.count

/-- Before the precommit, parts and block of the round come with its proposal. -/
structure PartsInv (v : View) : Prop where
  parts : v.step.val < RoundStepType.precommit.val → v.proposalBlockParts.isSome = true →
    v.proposal.isSome = true
  block : v.step.val < RoundStepType.precommit.val → v.proposalBlock.isSome = true → v.Ready

theorem PartsInv.of_le (h : RoundStepType.precommit.val ≤ v.step.val) : PartsInv v :=
  ⟨fun hlow => absurd hlow (not_lt.2 h), fun hlow => absurd hlow (not_lt.2 h)⟩

theorem Move.partsInv (h : Move L e v v') (hv : PartsInv v) : PartsInv v' := by
  cases h with
  | emit | schedule | gossipAggr | countVote | sendAggr | storeAggr | recordPrevotes
  | unlockByPrevotes | recordPrecommits => exact ⟨hv.parts, hv.block⟩
  | startRound aggrs votes he hstep =>
    have hlow : v.step.val < RoundStepType.precommit.val := by rw [hstep]; decide
    exact ⟨fun _ => hv.parts hlow, fun _ => hv.block hlow⟩
  | enterRound => exact ⟨fun _ h => by simp at h, fun _ h => by simp at h⟩
  | propose new hstep h =>
    have hlow := hstep.trans (show _ < RoundStepType.precommit.val by decide)
    exact ⟨fun _ => hv.parts hlow, fun _ => hv.block hlow⟩
  | acceptProposal proposal parts hnone =>
    refine ⟨fun _ _ => rfl, fun hlow hblock => ?_⟩
    have hready := (hv.block hlow hblock).1
    rw [hnone] at hready
    simp at hready
  | addPart parts parts' hparts hcount htotal hopen =>
    refine ⟨fun hlow _ => hv.parts hlow (by rw [hparts]; rfl), fun hlow hblock => ?_⟩
    obtain ⟨hproposal, p, hp, hle⟩ := hv.block hlow hblock
    obtain rfl := Option.some.inj (hparts.symm.trans hp)
    exact ⟨hproposal, parts', rfl, by omega⟩
  | completeBlock parts parts' block hparts hfull =>
    have hproposal : v.step.val < RoundStepType.precommit.val → v.proposal.isSome = true :=
      fun hlow => hv.parts hlow (by rw [hparts]; rfl)
    exact ⟨fun hlow _ => hproposal hlow, fun hlow _ => ⟨hproposal hlow, parts', rfl, hfull.ge⟩⟩
  | prevote blockID new hstep hproposal hblock =>
    have hlow := hstep.trans_lt (show _ < RoundStepType.precommit.val by decide)
    exact ⟨fun _ => hv.parts hlow, fun _ => hv.block hlow⟩
  | completeAndPrevote parts parts' block blockID new timeouts hparts hcount htotal hfull
      hproposal =>
    exact ⟨fun _ _ => hproposal, fun _ _ => ⟨hproposal, parts', rfl, hfull.ge⟩⟩
  | prevoteWait hstep =>
    have hlow := hstep.trans (show _ < RoundStepType.precommit.val by decide)
    exact ⟨fun _ => hv.parts hlow, fun _ => hv.block hlow⟩
  | precommitNil | precommitUnlock | precommitRelock | precommitLock =>
    exact .of_le (show _ ≤ RoundStepType.precommitWait.val by decide)
  | commit => exact .of_le (show _ ≤ RoundStepType.commit.val by decide)
  | finalize s block proposalBlock lockedBlock new he hstep =>
    exact .of_le (show _ ≤ v.step.val by rw [hstep]; decide)

/-! ## Votes -/

/-- The votes signed so far are of this height and of no later round.  A prevote of the
current round ends the wait for the block, a precommit the wait for prevotes. -/
structure SignedInv (v : View) : Prop where
  height : ∀ vote ∈ v.signedVotes, vote.height = v.height
  round : ∀ vote ∈ v.signedVotes, (vote.round : ℤ) ≤ v.round
  prevoted : ∀ vote ∈ v.signedVotes, vote.type_ = voteTypePrevote → (vote.round : ℤ) = v.round →
    RoundStepType.prevoteWait.val ≤ v.step.val ∧
      (v.step.val ≤ RoundStepType.prevoteWait.val → v.Ready)
  precommitted : ∀ vote ∈ v.signedVotes, vote.type_ = voteTypePrecommit →
    (vote.round : ℤ) = v.round → RoundStepType.precommit.val ≤ v.step.val
  unique : ∀ a ∈ v.signedVotes, ∀ b ∈ v.signedVotes, a.round = b.round → a.type_ = b.type_ → a = b

/-- A move that signs no vote and neither goes back in the round nor takes the block away. -/
theorem SignedInv.frame (hv : SignedInv v) (hvotes : v'.signedVotes = v.signedVotes)
    (hheight : v'.height = v.height) (hround : v'.round = v.round)
    (hstep : v.step.val ≤ v'.step.val)
    (hready : v'.step.val ≤ RoundStepType.prevoteWait.val → v.Ready → v'.Ready) : SignedInv v' where
  height := by rw [hvotes, hheight]; exact hv.height
  round := by rw [hvotes, hround]; exact hv.round
  prevoted := by
    rw [hvotes, hround]
    intro vote hmem htype hr
    obtain ⟨hle, hkeep⟩ := hv.prevoted vote hmem htype hr
    exact ⟨hle.trans hstep, fun hlow => hready hlow (hkeep (hstep.trans hlow))⟩
  precommitted := by
    rw [hvotes, hround]
    exact fun vote hmem htype hr => (hv.precommitted vote hmem htype hr).trans hstep
  unique := by rw [hvotes]; exact hv.unique

theorem SignedInv.enterRound (hv : SignedInv v) (hvotes : v'.signedVotes = v.signedVotes)
    (hheight : v'.height = v.height) (hround : v.round < v'.round) : SignedInv v' where
  height := by rw [hvotes, hheight]; exact hv.height
  round := by
    rw [hvotes]
    exact fun vote hmem => (hv.round vote hmem).trans hround.le
  prevoted := by
    rw [hvotes]
    exact fun vote hmem _ hr => absurd (hv.round vote hmem) (not_le.2 (hr ▸ hround))
  precommitted := by
    rw [hvotes]
    exact fun vote hmem _ hr => absurd (hv.round vote hmem) (not_le.2 (hr ▸ hround))
  unique := by rw [hvotes]; exact hv.unique

theorem IsVote.round_eq {vote : Vote} (h : IsVote v type_ blockID vote) (hr : RoundInv v) :
    (vote.round : ℤ) = v.round := by
  rw [h.round, toUint64_of_nonneg hr.nonneg hr.isInt]

/-- **One more vote**, of a type of which there is none in this round yet. -/
theorem SignedInv.sign (hv : SignedInv v) (hr : RoundInv v) (hvoted : Voted v type_ blockID new)
    (hvotes : v'.signedVotes = new.filterMap Effect.signedVote ++ v.signedVotes)
    (hheight : v'.height = v.height) (hround : v'.round = v.round)
    (hstep : v.step.val ≤ v'.step.val)
    (hready : v'.step.val ≤ RoundStepType.prevoteWait.val → v'.Ready)
    (hfirst : ∀ vote ∈ v.signedVotes, vote.type_ = type_ → (vote.round : ℤ) ≠ v.round)
    (hprevote : type_ = voteTypePrevote → RoundStepType.prevoteWait.val ≤ v'.step.val)
    (hprecommit : type_ = voteTypePrecommit → RoundStepType.precommit.val ≤ v'.step.val) :
    SignedInv v' := by
  rcases hvoted.signs.1 with hnone | ⟨vote, hvote, hone⟩
  · exact hv.frame (by rw [hvotes, hnone]; rfl) hheight hround hstep fun hlow _ => hready hlow
  rw [hone, List.singleton_append] at hvotes
  have hnow := hvote.round_eq hr
  refine ⟨?_, ?_, ?_, ?_, ?_⟩
  · rw [hvotes, hheight]
    exact List.forall_mem_cons.2 ⟨hvote.height, hv.height⟩
  · rw [hvotes, hround]
    exact List.forall_mem_cons.2 ⟨hnow.le, hv.round⟩
  · rw [hvotes, hround]
    refine List.forall_mem_cons.2 ⟨fun htype _ => ⟨hprevote (hvote.type_ ▸ htype), hready⟩, ?_⟩
    exact fun w hw htype hwr => ⟨(hv.prevoted w hw htype hwr).1.trans hstep, hready⟩
  · rw [hvotes, hround]
    refine List.forall_mem_cons.2 ⟨fun htype _ => hprecommit (hvote.type_ ▸ htype), ?_⟩
    exact fun w hw htype hwr => (hv.precommitted w hw htype hwr).trans hstep
  · -- a vote of the same round and type as the new one was not there before
    have hnew : ∀ w ∈ v.signedVotes, w.round = vote.round → w.type_ = vote.type_ → False := by
      intro w hw hwr hwt
      exact hfirst w hw (hwt.trans hvote.type_) (by rw [hwr, hnow])
    rw [hvotes]
    intro a ha b hb hab htype
    rcases List.mem_cons.1 ha with rfl | ha' <;> rcases List.mem_cons.1 hb with rfl | hb'
    · rfl
    · exact (hnew b hb' hab.symm htype.symm).elim
    · exact (hnew a ha' hab htype).elim
    · exact hv.unique a ha' b hb' hab htype

/-- **Every move keeps the votes of a round apart.** -/
theorem Move.signedInv (h : Move L e v v') (hr : RoundInv v) (hp : PartsInv v)
    (hv : SignedInv v) : SignedInv v' := by
  -- the four precommits: from a step before `Precommit`, so there is no precommit yet
  have hprecommit : ∀ {blockID : BlockID} {new : List Effect} {w : View} {ti : TimeoutInfo},
      v.step.val < RoundStepType.precommit.val → Voted v voteTypePrecommit blockID new →
      w.out = .schedule ti :: (new ++ v.out) → w.height = v.height → w.round = v.round →
      w.step = .precommitWait → SignedInv w := by
    intro blockID new w ti hstep hvoted hout hheight hround hw
    refine hv.sign hr hvoted ?_ hheight hround ?_ ?_ ?_ (fun h => absurd h (by decide)) ?_
    · rw [View.signedVotes, hout]
      exact List.filterMap_append
    · rw [hw]
      exact hstep.le.trans (by decide)
    · rw [hw]
      exact fun hlow => absurd hlow (by decide)
    · exact fun vote hmem htype hvr =>
        absurd (hv.precommitted vote hmem htype hvr) (not_le.2 hstep)
    · rw [hw]
      exact fun _ => by decide
  cases h with
  | countVote | storeAggr | recordPrevotes | unlockByPrevotes | recordPrecommits | schedule
  | gossipAggr | sendAggr => exact hv.frame rfl rfl rfl le_rfl fun _ h => h
  | emit effect h =>
    exact hv.frame (List.filterMap_cons_none (Effect.benign_signs h).1) rfl rfl le_rfl fun _ h => h
  | startRound aggrs votes he hstep =>
    have hle : v.step.val ≤ RoundStepType.newRound.val := by rw [hstep]; decide
    exact hv.frame rfl rfl rfl hle fun _ h => h
  | enterRound round aggrs votes he hround => exact hv.enterRound rfl rfl hround
  | propose new hstep h =>
    exact hv.frame (by simp [View.signedVotes, h.signs.2]) rfl rfl hstep.le fun _ h => h
  | acceptProposal proposal parts hnone =>
    refine hv.frame rfl rfl rfl le_rfl fun _ h => ?_
    have hsome := h.1
    rw [hnone] at hsome
    simp at hsome
  | addPart parts parts' hparts hcount htotal hopen =>
    refine hv.frame rfl rfl rfl le_rfl fun _ h => ?_
    obtain ⟨hproposal, p, hp, hle⟩ := h
    obtain rfl := Option.some.inj (hparts.symm.trans hp)
    exact ⟨hproposal, parts', rfl, by omega⟩
  | completeBlock parts parts' block hparts hfull =>
    exact hv.frame rfl rfl rfl le_rfl fun _ h => ⟨h.1, parts', rfl, hfull.ge⟩
  | prevoteWait hstep =>
    exact hv.frame rfl rfl rfl hstep.le fun _ h => h
  | commit commitRound block parts hstep =>
    exact hv.frame rfl rfl rfl hstep.le fun hlow =>
      absurd hlow (show ¬ RoundStepType.commit.val ≤ _ by decide)
  | finalize s block proposalBlock lockedBlock new he hstep hcommit hblock hlock hnew =>
    refine hv.frame ?_ rfl rfl le_rfl fun _ h => h
    rw [View.signedVotes, List.filterMap_append, (filterMap_benign hnew).1]
    rfl
  | prevote blockID new hstep hproposal hblock hvoted =>
    have hlow := hstep.trans_lt (show _ < RoundStepType.precommit.val by decide)
    refine hv.sign hr hvoted List.filterMap_append rfl rfl
      (hstep.trans (show _ ≤ RoundStepType.prevoteWait.val by decide))
      (fun _ => hp.block hlow hblock) ?_ (fun _ => le_rfl) (fun h => absurd h (by decide))
    -- an earlier prevote of the round would have left a later step behind
    intro vote hmem htype hvr
    have hlate := (hv.prevoted vote hmem htype hvr).1.trans hstep
    exact absurd hlate (by decide)
  | completeAndPrevote parts parts' block blockID new timeouts hparts hcount htotal hfull hproposal
      hstep hvoted hlock htimeouts =>
    have hquiet : timeouts.filterMap Effect.signedVote = [] :=
      List.filterMap_eq_nil_iff.2 fun t ht => by rw [htimeouts t ht]; rfl
    refine hv.sign hr hvoted (by simp [View.signedVotes, hquiet]) rfl rfl hstep
      (fun _ => ⟨hproposal, parts', rfl, hfull.ge⟩) ?_ (fun _ => le_rfl)
      (fun h => absurd h (by decide))
    -- an earlier prevote of the round would have seen all the parts
    intro vote hmem htype hvr
    obtain ⟨-, p, hp, hle⟩ := (hv.prevoted vote hmem htype hvr).2 hstep
    obtain rfl := Option.some.inj (hparts.symm.trans hp)
    omega
  | precommitNil new hstep hvoted | precommitUnlock s block parts new hstep hpolka hother hvoted
  | precommitRelock s new hstep hpolka hsame hvoted
  | precommitLock s block new hstep hpolka hother hblock hsame hvoted =>
    exact hprecommit hstep hvoted rfl rfl rfl rfl

/-! ## Proposals -/

/-- The proposals signed so far are of this height and of no later round, and the one of the
current round was signed on the way into the step `Propose`. -/
structure ProposedInv (v : View) : Prop where
  height : ∀ p ∈ v.signedProposals, p.height = v.height
  round : ∀ p ∈ v.signedProposals, p.round ≤ v.round
  proposed : ∀ p ∈ v.signedProposals, p.round = v.round → RoundStepType.propose.val ≤ v.step.val
  unique : ∀ p ∈ v.signedProposals, ∀ q ∈ v.signedProposals, p.round = q.round → p = q

/-- A move that signs no proposal and does not go back. -/
theorem ProposedInv.frame (hv : ProposedInv v) (hproposals : v'.signedProposals = v.signedProposals)
    (hheight : v'.height = v.height)
    (hstep : v.round < v'.round ∨ v'.round = v.round ∧ v.step.val ≤ v'.step.val) :
    ProposedInv v' where
  height := by rw [hproposals, hheight]; exact hv.height
  round := by
    rw [hproposals]
    intro p hp
    rcases hstep with hlt | ⟨heq, -⟩
    · exact (hv.round p hp).trans hlt.le
    · exact (hv.round p hp).trans heq.ge
  proposed := by
    rw [hproposals]
    intro p hp hpr
    rcases hstep with hlt | ⟨heq, hle⟩
    · exact absurd (hv.round p hp) (not_le.2 (hpr ▸ hlt))
    · exact (hv.proposed p hp (hpr.trans heq)).trans hle
  unique := by rw [hproposals]; exact hv.unique

/-- **Every move keeps the proposals of a round apart.** -/
theorem Move.proposedInv (h : Move L e v v') (hv : ProposedInv v) : ProposedInv v' := by
  have hstep := h.forward
  have hvote : ∀ {type_ blockID new ti}, Voted v type_ blockID new →
      (.schedule ti :: (new ++ v.out) : List Effect).filterMap Effect.signedProposal =
        v.signedProposals := fun hvoted =>
    List.filterMap_append.trans (by rw [hvoted.signs.2]; rfl)
  cases h with
  | emit effect h =>
    exact hv.frame (List.filterMap_cons_none (Effect.benign_signs h).2) rfl hstep
  | finalize s block proposalBlock lockedBlock new he _ hcommit hblock hlock hnew =>
    refine hv.frame ?_ rfl hstep
    rw [View.signedProposals, List.filterMap_append, (filterMap_benign hnew).2]
    rfl
  | completeAndPrevote parts parts' block blockID new timeouts hparts hcount htotal hfull hproposal
      _ hvoted hlock htimeouts =>
    have hquiet : timeouts.filterMap Effect.signedProposal = [] :=
      List.filterMap_eq_nil_iff.2 fun t ht => by rw [htimeouts t ht]; rfl
    exact hv.frame (by simp [View.signedProposals, hquiet, hvoted.signs.2]) rfl hstep
  | prevote blockID new _ hproposal hblock hvoted | precommitNil new _ hvoted
  | precommitUnlock s block parts new _ hpolka hother hvoted
  | precommitRelock s new _ hpolka hsame hvoted
  | precommitLock s block new _ hpolka hother hblock hsame hvoted =>
    exact hv.frame (hvote hvoted) rfl hstep
  | propose new hpropose h =>
    rcases h.signs.1 with hnone | ⟨p, hheight, hround, hone⟩
    · exact hv.frame (by simp [View.signedProposals, hnone]) rfl hstep
    have hproposals : ({ v with step := .propose, out := new ++ v.out } : View).signedProposals =
        p :: v.signedProposals := by
      simp [View.signedProposals, hone]
    -- an earlier proposal of the round would have left the step `Propose` behind
    have hnew : ∀ q ∈ v.signedProposals, q.round ≠ p.round := fun q hq hqr =>
      absurd (hv.proposed q hq (hqr.trans hround)) (not_le.2 hpropose)
    refine ⟨?_, ?_, ?_, ?_⟩
    · rw [hproposals]
      exact List.forall_mem_cons.2 ⟨hheight, hv.height⟩
    · rw [hproposals]
      exact List.forall_mem_cons.2 ⟨hround.le, hv.round⟩
    · exact fun _ _ _ => le_rfl
    · rw [hproposals]
      intro a ha b hb hab
      rcases List.mem_cons.1 ha with rfl | ha' <;> rcases List.mem_cons.1 hb with rfl | hb'
      · rfl
      · exact absurd hab.symm (hnew b hb')
      · exact absurd hab (hnew a ha')
      · exact hv.unique a ha' b hb' hab
  | _ => exact hv.frame rfl rfl hstep

/-! ## The lock -/

/-- A lock is of no later round; it is of the current round only after the precommit. -/
structure LockInv (v : View) : Prop where
  nonneg : v.lockedBlock.isSome = true → 0 ≤ v.lockedRound
  le : v.lockedBlock.isSome = true → v.lockedRound ≤ v.round
  step : v.lockedBlock.isSome = true → v.lockedRound = v.round →
    RoundStepType.precommit.val ≤ v.step.val

/-- A move that leaves the lock alone and does not go back. -/
theorem LockInv.frame (hv : LockInv v) (hblock : v'.lockedBlock.isSome = v.lockedBlock.isSome)
    (hlocked : v'.lockedRound = v.lockedRound)
    (hstep : v.round < v'.round ∨ v'.round = v.round ∧ v.step.val ≤ v'.step.val) : LockInv v' where
  nonneg := by rw [hblock, hlocked]; exact hv.nonneg
  le := by
    rw [hblock, hlocked]
    intro h
    rcases hstep with hlt | ⟨heq, -⟩
    · exact (hv.le h).trans hlt.le
    · exact (hv.le h).trans heq.ge
  step := by
    rw [hblock, hlocked]
    intro h hr
    rcases hstep with hlt | ⟨heq, hle⟩
    · exact absurd (hv.le h) (not_le.2 (hr ▸ hlt))
    · exact (hv.step h (hr.trans heq)).trans hle

theorem Move.lockInv (h : Move L e v v') (hr : RoundInv v) (hv : LockInv v) : LockInv v' := by
  have hstep := h.forward
  cases h with
  | unlockByPrevotes | precommitUnlock =>
    exact ⟨fun h => by simp at h, fun h => by simp at h, fun h => by simp at h⟩
  | precommitRelock | precommitLock =>
    exact ⟨fun _ => hr.nonneg, fun _ => le_rfl,
      fun _ _ => show _ ≤ RoundStepType.precommitWait.val by decide⟩
  | finalize s block proposalBlock lockedBlock new he _ hcommit hblock hlock =>
    refine hv.frame ?_ rfl hstep
    rcases hlock with rfl | ⟨b, b', hb, rfl, -⟩
    · rfl
    · rw [hb]
      rfl
  | _ => exact hv.frame rfl rfl hstep

/-! ## Stored aggregates -/

theorem Move.fixed (h : Move L e v v') :
    v'.height = v.height ∧ v'.validators = v.validators ∧ v'.address = v.address := by
  cases h <;> exact ⟨rfl, rfl, rfl⟩

/-- Every stored aggregate was verified, is filed under its round and type, and satisfies
whatever all aggregates that arrive satisfy. -/
structure StoredInv (L : Libs) (P : SignAggr → Prop) (v : View) : Prop where
  prevotes : ∀ r s, v.voteSignAggr.prevotes r = some s →
    Verified L v.height v.validators s ∧ s.round = r ∧ s.type_ = voteTypePrevote ∧ P s
  precommits : ∀ r s, v.voteSignAggr.precommits r = some s →
    Verified L v.height v.validators s ∧ s.round = r ∧ s.type_ = voteTypePrecommit ∧ P s
  prevoteMaj23 : ∀ s, v.prevoteMaj23SignAggr = some s →
    Verified L v.height v.validators s ∧ s.type_ = voteTypePrevote ∧ P s

theorem Move.prevotes_keep (h : Move L e v v') {r : ℤ} {s : SignAggr}
    (hs : v.voteSignAggr.prevotes r = some s) : v'.voteSignAggr.prevotes r = some s := by
  cases h with
  | storeAggr => exact HeightVoteSignAggr.prevotes_addSignAggr hs
  | startRound aggrs votes he hstep haggrs =>
    obtain ⟨_, haggrs⟩ := haggrs
    exact (HeightVoteSignAggr.setRound_lookup haggrs).1.trans hs
  | enterRound round aggrs votes he hround hint hstep haggrs =>
    obtain ⟨_, haggrs⟩ := haggrs
    exact (HeightVoteSignAggr.setRound_lookup haggrs).1.trans hs
  | _ => exact hs

theorem Move.storedInv {P : SignAggr → Prop} (h : Move L e v v')
    (hP : ∀ s peerKey, e = .msg (.maj23SignAggr (some s)) peerKey → P s)
    (hv : StoredInv L P v) : StoredInv L P v' := by
  cases h with
  | storeAggr s peerKey he hs =>
    refine ⟨fun r t ht => ?_, fun r t ht => ?_, hv.prevoteMaj23⟩
    · rcases HeightVoteSignAggr.addSignAggr_prevotes ht with hold | ⟨rfl, hround, htype⟩
      · exact hv.prevotes r t hold
      · exact ⟨hs, hround, htype, hP _ _ he⟩
    · rcases HeightVoteSignAggr.addSignAggr_precommits ht with hold | ⟨rfl, hround, htype⟩
      · exact hv.precommits r t hold
      · exact ⟨hs, hround, htype, hP _ _ he⟩
  | startRound aggrs votes he hstep haggrs =>
    obtain ⟨_, haggrs⟩ := haggrs
    exact ⟨fun r t ht => hv.prevotes r t ((HeightVoteSignAggr.setRound_lookup haggrs).1 ▸ ht),
      fun r t ht => hv.precommits r t ((HeightVoteSignAggr.setRound_lookup haggrs).2 ▸ ht),
      hv.prevoteMaj23⟩
  | enterRound round aggrs votes he hround hint hstep haggrs =>
    obtain ⟨_, haggrs⟩ := haggrs
    exact ⟨fun r t ht => hv.prevotes r t ((HeightVoteSignAggr.setRound_lookup haggrs).1 ▸ ht),
      fun r t ht => hv.precommits r t ((HeightVoteSignAggr.setRound_lookup haggrs).2 ▸ ht),
      fun s hs => by simp at hs⟩
  | recordPrevotes s peerKey he hs hround htype | unlockByPrevotes s peerKey he hs hround htype =>
    refine ⟨hv.prevotes, hv.precommits, fun t ht => ?_⟩
    cases ht
    exact ⟨hs, htype, hP _ _ he⟩
  | _ => exact ⟨hv.prevotes, hv.precommits, hv.prevoteMaj23⟩

/-! ## All together -/

/-- What a validator that never goes back keeps invariant. -/
structure LocalInv (v : View) : Prop where
  round : RoundInv v
  parts : PartsInv v
  signed : SignedInv v
  proposed : ProposedInv v
  lock : LockInv v

theorem Move.localInv (h : Move L e v v') (hv : LocalInv v) : LocalInv v' :=
  ⟨h.roundInv hv.round, h.partsInv hv.parts, h.signedInv hv.round hv.parts hv.signed,
    h.proposedInv hv.proposed, h.lockInv hv.round hv.lock⟩

namespace ConsensusState

variable {env : Env} {cs cs' : ConsensusState} {input : ℤ × Event}

/-- `StartNewHeight` establishes the invariant. -/
theorem startNewHeight_localInv {extra : TendermintExtra} {validators : ValidatorSet}
    {pv : Option PrivValidator} {block : Option LigoBlock}
    (h : startNewHeight env extra validators pv block = .ok cs) : LocalInv cs.view := by
  obtain ⟨votes, -, h⟩ := Steps.bind_eq_ok.1 h
  cases h
  refine ⟨⟨le_rfl, show IsInt 0 by decide, ?_⟩, ⟨?_, ?_⟩, ⟨?_, ?_, ?_, ?_, ?_⟩, ⟨?_, ?_, ?_, ?_⟩, ⟨?_, ?_, ?_⟩⟩ <;>
    simp [view, View.timeouts, View.signedVotes, View.signedProposals, Effect.timeout,
      Effect.signedVote, Effect.signedProposal]

theorem startNewHeight_storedInv {extra : TendermintExtra} {validators : ValidatorSet}
    {pv : Option PrivValidator} {block : Option LigoBlock} (P : SignAggr → Prop)
    (h : startNewHeight env extra validators pv block = .ok cs) : StoredInv L P cs.view := by
  obtain ⟨votes, -, h⟩ := Steps.bind_eq_ok.1 h
  cases h
  refine ⟨?_, ?_, ?_⟩ <;> simp [view]

/-- **An input that does not take the validator back is a sequence of moves**, if its timeout
was scheduled. -/
theorem moves_of_forward (hv : LocalInv cs.view) (hfires : cs.Fires input.2)
    (hround : cs.round ≤ cs'.round) (h : cs.handle env input = .ok cs') :
    Moves env.libs input.2 cs.view cs'.view :=
  handle_moves hv.round.nonneg
    (fun ti hti => hv.round.timeouts ti (View.mem_timeouts.2 (hfires ti hti)))
    (fun _ _ _ => hround) h

/-- **An input that does not take the validator back keeps the invariant**, if its timeout
was scheduled. -/
theorem handle_localInv (hv : LocalInv cs.view) (hfires : cs.Fires input.2)
    (hround : cs.round ≤ cs'.round) (h : cs.handle env input = .ok cs') : LocalInv cs'.view :=
  (moves_of_forward hv hfires hround h).preserves (fun _ _ => Move.localInv) hv

end ConsensusState

end Consensus

end LigoChain
