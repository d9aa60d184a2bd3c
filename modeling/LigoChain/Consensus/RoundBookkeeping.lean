/-
# The rounds that the two height sets hold

`Votes` and `VoteSignAggr` each keep an entry for every round up to one above the
current one (`height_vote_set.go`, `height_sign_aggr.go`).  `enterNewRound` opens the
next round with `SetRound`, `enterLowerRound` closes rounds with `ResetTop2Round`
(`state.go`).  The round itself is also written by `updateRoundStep`, which
`enterPropose`, `enterPrevote`, `enterPrevoteWait`, `enterPrecommit` and
`enterPrecommitWait` call with the round of the timeout that fired.

After a return to a lower round, a timeout of the higher round can still be under way:
`timeoutRoutine` (`ticker.go`) hands a timeout over in a goroutine of its own.
`handleTimeout` lets it pass, since it is of a higher round, and the step function then
votes with the round of the state and moves to the round of the timeout
(`rounds_not_booked`).  As long as no timeout of a higher round fires and no proposal of a
negative round arrives, the books are right (`rounds_booked`).
-/

import LigoChain.Consensus.Frames
import LigoChain.Consensus.PlainEnv

namespace LigoChain

open GoInt Steps

/-! ## Counting votes -/

theorem ValidatorSet.calm_getByIndex (valSet : ValidatorSet) (index : ℤ) :
    Go.Calm (valSet.getByIndex index) := by
  unfold ValidatorSet.getByIndex
  split
  · rfl
  split
  · trivial
  · rfl

namespace VoteSet

theorem calm_getVote (voteSet : VoteSet) (valIndex : ℤ) (key : Bytes) :
    (voteSet.getVote valIndex key).Calm := by
  unfold getVote
  split
  · rfl
  split
  · trivial
  split
  · trivial
  split
  · rfl
  · trivial

theorem calm_placeVote (voteSet : VoteSet) (vote : Vote) (key : Bytes) (power : ℤ) :
    (voteSet.placeVote vote key power).Calm := by
  unfold placeVote
  split
  · rfl
  · split
    · rfl
    split <;> trivial
  · trivial

theorem calm_countVote (voteSet : VoteSet) (vote : Vote) (key : Bytes) (power : ℤ)
    (bv : BlockVotes) : (voteSet.countVote vote key power bv).Calm := by
  unfold countVote
  split
  · trivial
  · have hadd : (bv.addVerifiedVote vote power).Calm := by
      unfold BlockVotes.addVerifiedVote
      split
      · rfl
      · trivial
      · trivial
    dsimp only
    refine hadd.bind fun bv' _ _ => ?_
    split <;> trivial

theorem calm_addVerifiedVote (voteSet : VoteSet) (vote : Vote) (key : Bytes) (power : ℤ) :
    (voteSet.addVerifiedVote vote key power).Calm := by
  unfold addVerifiedVote
  refine (calm_placeVote _ _ _ _).bind ?_
  rintro ⟨placed, conflicting⟩ - -
  dsimp only
  split
  · split
    · trivial
    · exact (calm_countVote _ _ _ _ _).bind fun _ _ _ => trivial
  · split
    · trivial
    · exact (calm_countVote _ _ _ _ _).bind fun _ _ _ => trivial

theorem calm_addVote (L : Libs) (voteSet : VoteSet) (vote : Vote) :
    (voteSet.addVote L vote).Calm := by
  unfold addVote
  refine meets_ite (fun _ => rfl) fun _ => meets_ite (fun _ => trivial) fun _ => ?_
  generalize ofUint64 vote.validatorIndex = index
  refine Meets.bind (voteSet.valSet.calm_getByIndex index) ?_
  rintro ⟨addr, val⟩ - -
  dsimp only
  split
  · trivial
  refine (calm_getVote _ _ _).bind fun existing _ _ => ?_
  split
  · split <;> trivial
  split
  · trivial
  refine (calm_addVerifiedVote _ _ _ _).bind ?_
  rintro ⟨voteSet', added, conflicting⟩ - -
  dsimp only
  split
  · trivial
  split
  · rfl
  · trivial

end VoteSet

namespace Consensus

/-! ## The rounds of a height set -/

theorem isSome_lookup_insert {β : Type} {m : GoMap ℤ β} {q : ℤ} (hq : (m.lookup q).isSome = true)
    (r : ℤ) (x : β) : ((m.insert r x).lookup q).isSome = true := by
  by_cases hr : q = r
  · rw [hr, AList.lookup_insert]
    rfl
  · rw [AList.lookup_insert_ne hr]
    exact hq

section Rounds

/-! Both height sets keep a map of rounds, to which a missing round can be added. -/

variable {σ β : Type} {rounds : σ → GoMap ℤ β} {I : σ → Prop} {add : σ → ℤ → Go σ}
variable (hadd : ∀ s r, I s → (rounds s).lookup r = none →
  ∃ s' x, add s r = .ok s' ∧ I s' ∧ rounds s' = (rounds s).insert r x)

include hadd

/-- The loop of `SetRound`: all the rounds of the list are there in the end. -/
theorem foldlM_opens (l : List ℤ) {s : σ} (hs : I s) :
    ∃ s', l.foldlM (fun s r => if ((rounds s).lookup r).isSome then .ok s else add s r) s = .ok s' ∧
      I s' ∧ (∀ r ∈ l, ((rounds s').lookup r).isSome = true) ∧
      ∀ q, ((rounds s).lookup q).isSome = true → ((rounds s').lookup q).isSome = true := by
  induction l generalizing s with
  | nil => exact ⟨s, rfl, hs, by simp, fun _ h => h⟩
  | cons r l ih =>
    obtain ⟨t, ht, hIt, hr, hmono⟩ : ∃ t,
        (if ((rounds s).lookup r).isSome then .ok s else add s r) = .ok t ∧ I t ∧
        ((rounds t).lookup r).isSome = true ∧
        ∀ q, ((rounds s).lookup q).isSome = true → ((rounds t).lookup q).isSome = true := by
      by_cases hr : ((rounds s).lookup r).isSome = true
      · exact ⟨s, if_pos hr, hs, hr, fun _ hq => hq⟩
      · obtain ⟨t, x, ht, hIt, hrounds⟩ := hadd s r hs (by simpa using hr)
        exact ⟨t, by rw [if_neg hr, ht], hIt, by simp [hrounds], fun q hq =>
          hrounds ▸ isSome_lookup_insert hq r x⟩
    obtain ⟨s', hs', hI, hall, hmono'⟩ := ih hIt
    refine ⟨s', Steps.foldlM_cons_eq_ok.2 ⟨t, ht, hs'⟩, hI, ?_, fun q hq => hmono' q (hmono q hq)⟩
    exact List.forall_mem_cons.2 ⟨hmono' r hr, hall⟩

/-- The two rounds that `ResetTop2Round` adds to those it has left. -/
theorem reset_opens {s : σ} {m : GoMap ℤ β} {round hi : ℤ} (hs : I s)
    (hm : rounds s = (countUp (round - 1) hi).foldl (fun m r => m.erase r) m) (hle : round ≤ hi)
    (hopen : ∀ r, 0 ≤ r → r ≤ hi → (m.lookup r).isSome = true) :
    ∃ below top, add s (round - 1) = .ok below ∧ add below round = .ok top ∧ I top ∧
      ∀ r, 0 ≤ r → r ≤ round → ((rounds top).lookup r).isSome = true := by
  have hlookup := lookup_foldl_erase (countUp (round - 1) hi) m
  rw [← hm] at hlookup
  obtain ⟨below, x, hbelow, hI, hrounds⟩ := hadd s (round - 1) hs
    (by rw [hlookup, if_pos (mem_countUp.2 (by omega))])
  obtain ⟨top, y, htop, hI', hrounds'⟩ := hadd below round hI (by
    rw [hrounds, AList.lookup_insert_ne (by omega), hlookup, if_pos (mem_countUp.2 (by omega))])
  refine ⟨below, top, hbelow, htop, hI', fun r hlo hhi => ?_⟩
  rw [hrounds', hrounds]
  by_cases hr : r = round
  · rw [hr, AList.lookup_insert]
    rfl
  rw [AList.lookup_insert_ne hr]
  by_cases hr' : r = round - 1
  · rw [hr', AList.lookup_insert]
    rfl
  rw [AList.lookup_insert_ne hr', hlookup, if_neg (by rw [mem_countUp]; omega)]
  exact hopen r hlo (by omega)

end Rounds

namespace HeightVoteSignAggr

variable {hvs hvs' : HeightVoteSignAggr} {round : ℤ}

/-- There is an entry for the round. -/
def Opens (hvs : HeightVoteSignAggr) (r : ℤ) : Prop := (hvs.roundVoteSignAggrs.lookup r).isSome = true

theorem addRound_opens (hvs : HeightVoteSignAggr) (round : ℤ) (_ : True)
    (h : hvs.roundVoteSignAggrs.lookup round = none) : ∃ hvs' x, hvs.addRound round = .ok hvs' ∧
      True ∧ hvs'.roundVoteSignAggrs = hvs.roundVoteSignAggrs.insert round x :=
  ⟨_, ⟨none, none⟩, if_neg (by simp [h]), trivial, rfl⟩

/-- **`SetRound` does not panic** on a later round, and opens the rounds up to it. -/
theorem setRound_opens (h : hvs.round = 0 ∨ hvs.round < round) :
    ∃ hvs', hvs.setRound round = .ok hvs' ∧ hvs'.round = round ∧
      (∀ r, hvs.round < r → r ≤ round → hvs'.Opens r) ∧ ∀ r, hvs.Opens r → hvs'.Opens r := by
  obtain ⟨top, htop, -, hall, hmono⟩ :=
    foldlM_opens addRound_opens (countUp (hvs.round + 1) round) (s := hvs) trivial
  refine ⟨{ top with round := round }, ?_, rfl, fun r hlo hhi => ?_, hmono⟩
  · rw [setRound, if_neg (by omega), htop]
    rfl
  · exact hall r (mem_countUp.2 ⟨by omega, hhi⟩)

/-- **`ResetTop2Round` does not panic** on a round from `1` to the current one, and keeps the
rounds up to it. -/
theorem resetTop2Round_opens (hpos : 1 ≤ round) (hle : round ≤ hvs.round)
    (hopen : ∀ r, 0 ≤ r → r ≤ hvs.round → hvs.Opens r) :
    ∃ hvs', hvs.resetTop2Round round = .ok hvs' ∧ hvs'.round = round ∧
      ∀ r, 0 ≤ r → r ≤ round → hvs'.Opens r := by
  obtain ⟨below, top, hbelow, htop, -, hopens⟩ := reset_opens addRound_opens (s := { hvs with
    roundVoteSignAggrs := (countUp (round - 1) hvs.round).foldl
      (fun m r => m.erase r) hvs.roundVoteSignAggrs }) trivial rfl hle hopen
  refine ⟨{ top with round := round }, ?_, rfl, hopens⟩
  simp only [resetTop2Round, hbelow, htop, bind, Except.bind]
  rw [if_neg (by omega)]

theorem addSignAggr_opens (s : SignAggr) :
    (hvs.addSignAggr s).round = hvs.round ∧ ∀ r, hvs.Opens r → (hvs.addSignAggr s).Opens r := by
  unfold addSignAggr
  split
  · exact ⟨rfl, fun _ h => h⟩
  split
  · exact ⟨rfl, fun _ h => isSome_lookup_insert h _ _⟩
  split
  · exact ⟨rfl, fun _ h => isSome_lookup_insert h _ _⟩
  · exact ⟨rfl, fun _ h => h⟩

end HeightVoteSignAggr

namespace HeightVoteSet

variable {hvs hvs' : HeightVoteSet} {round : ℤ}

/-- There is an entry for the round. -/
def Opens (hvs : HeightVoteSet) (r : ℤ) : Prop := (hvs.roundVoteSets.lookup r).isSome = true

instance (hvs : HeightVoteSet) (r : ℤ) : Decidable (hvs.Opens r) :=
  inferInstanceAs (Decidable (_ = _))

/-- A round that is not there can be added, at a positive height. -/
theorem addRound_opens (hvs : HeightVoteSet) (round : ℤ) (hheight : hvs.height ≠ 0)
    (h : hvs.roundVoteSets.lookup round = none) : ∃ hvs' x, hvs.addRound round = .ok hvs' ∧
      hvs'.height ≠ 0 ∧ hvs'.roundVoteSets = hvs.roundVoteSets.insert round x := by
  obtain ⟨pre, hpre⟩ : ∃ pre, newVoteSet hvs.chainID hvs.height round voteTypePrevote hvs.valSet =
    .ok pre := ⟨_, if_neg hheight⟩
  obtain ⟨com, hcom⟩ : ∃ com, newVoteSet hvs.chainID hvs.height round voteTypePrecommit
    hvs.valSet = .ok com := ⟨_, if_neg hheight⟩
  exact ⟨{ hvs with roundVoteSets := hvs.roundVoteSets.insert round ⟨pre, com⟩ }, _,
    by simp [addRound, h, hpre, hcom, bind, Except.bind], hheight, rfl⟩

/-- **`SetRound` does not panic** on a later round, and opens the rounds up to it. -/
theorem setRound_opens (hheight : hvs.height ≠ 0) (h : hvs.round = 0 ∨ hvs.round < round) :
    ∃ hvs', hvs.setRound round = .ok hvs' ∧ hvs'.height ≠ 0 ∧ hvs'.round = round ∧
      (∀ r, hvs.round < r → r ≤ round → hvs'.Opens r) ∧ ∀ r, hvs.Opens r → hvs'.Opens r := by
  obtain ⟨top, htop, hpos, hall, hmono⟩ :=
    foldlM_opens addRound_opens (countUp (hvs.round + 1) round) hheight
  refine ⟨{ top with round := round }, ?_, hpos, rfl, fun r hlo hhi => ?_, hmono⟩
  · rw [setRound, if_neg (by omega), htop]
    rfl
  · exact hall r (mem_countUp.2 ⟨by omega, hhi⟩)

/-- **`ResetTop2Round` does not panic** on a round from `1` to the current one, and keeps the
rounds up to it. -/
theorem resetTop2Round_opens (hheight : hvs.height ≠ 0) (hpos : 1 ≤ round)
    (hle : round ≤ hvs.round) (hopen : ∀ r, 0 ≤ r → r ≤ hvs.round → hvs.Opens r) :
    ∃ hvs', hvs.resetTop2Round round = .ok hvs' ∧ hvs'.height ≠ 0 ∧ hvs'.round = round ∧
      ∀ r, 0 ≤ r → r ≤ round → hvs'.Opens r := by
  obtain ⟨below, top, hbelow, htop, hheight', hopens⟩ := reset_opens addRound_opens (s := { hvs with
    roundVoteSets := (countUp (round - 1) hvs.round).foldl
      (fun m r => m.erase r) hvs.roundVoteSets }) hheight rfl hle hopen
  refine ⟨{ top with round := round }, ?_, hheight', rfl, hopens⟩
  simp only [resetTop2Round, hbelow, htop, bind, Except.bind]
  rw [if_neg (by omega)]

/-- **A vote for an open round** opens and closes none. -/
theorem addVote_opens {L : Libs} {vote : Vote} {peerKey : String}
    (hopen : hvs.Opens (ofUint64 vote.round)) :
    Meets GoPanic.Other (fun r => r.1.height = hvs.height ∧ r.1.round = hvs.round ∧
      ∀ q, hvs.Opens q → r.1.Opens q) (hvs.addVote L vote peerKey) := by
  have hsame : hvs.height = hvs.height ∧ hvs.round = hvs.round ∧ ∀ q, hvs.Opens q → hvs.Opens q :=
    ⟨rfl, rfl, fun _ h => h⟩
  obtain ⟨rvs, hrvs⟩ := Option.isSome_iff_exists.1 hopen
  by_cases htype : isVoteTypeValid vote.type_ = true
  · rw [addVote_eq htype (catchup_of_open hrvs) hrvs]
    exact (VoteSet.calm_addVote _ _ _).bind fun _ _ _ =>
      ⟨rfl, rfl, fun _ hq => isSome_lookup_insert hq _ _⟩
  · rw [addVote, if_pos (by simpa using htype)]
    exact hsame

end HeightVoteSet

namespace ConsensusState

variable {env : Env} {cs cs' cs₀ : ConsensusState}

/-- Both height sets hold the rounds up to one above the current one. -/
def HoldsRounds (cs : ConsensusState) : Prop :=
  ∀ r, 0 ≤ r → r ≤ cs.round + 1 → cs.votes.Opens r ∧ cs.voteSignAggr.Opens r

/-- The votes that an input adds are of the round in which it leaves the validator. -/
def VotesInRound (cs cs' : ConsensusState) : Prop :=
  ∃ new, cs'.out = new ++ cs.out ∧
    ∀ vote, .signVote vote ∈ new → vote.round = toUint64 cs'.round

/-- The input is not late: a timeout is not of a higher round, and a proposal is not of a negative
one.  The round is far from the largest `int`. -/
def inTime (cs : ConsensusState) : Event → Bool
  | .timeout ti => decide (ti.round ≤ cs.round ∧ cs.round + 2 ≤ maxInt)
  | .msg (.proposal (some x)) _ => decide (0 ≤ x.round)
  | _ => true

/-- No timeout of a higher round fires, and no proposal is of a negative round. -/
abbrev Timely (cs : ConsensusState) (input : ℤ × Event) : Prop := cs.inTime input.2 = true

theorem Timely.timeout {input : ℤ × Event} (h : Timely cs input) {ti : TimeoutInfo}
    (hti : input.2 = .timeout ti) : ti.round ≤ cs.round ∧ cs.round + 2 ≤ maxInt := by
  rw [Timely, hti] at h
  exact of_decide_eq_true h

theorem Timely.proposal {input : ℤ × Event} (h : Timely cs input) {x : Proposal} {key : String}
    (hx : input.2 = .msg (.proposal (some x)) key) : 0 ≤ x.round := by
  rw [Timely, hx] at h
  exact of_decide_eq_true h

/-- The round and the two height sets are in step: before the first round is entered both are at
round `0`, afterwards one ahead of the validator. -/
structure Booked (cs : ConsensusState) : Prop where
  nonneg : 0 ≤ cs.round
  isInt : cs.round + 1 ≤ maxInt
  height : cs.votes.height ≠ 0
  same : cs.voteSignAggr.round = cs.votes.round
  opens : ∀ r, 0 ≤ r → r ≤ cs.votes.round → cs.votes.Opens r ∧ cs.voteSignAggr.Opens r
  inStep : cs.votes.round = 0 ∧ cs.round = 0 ∨
    cs.votes.round = cs.round + 1 ∧ cs.step ≠ .newHeight

theorem Booked.round_le (h : Booked cs) : cs.round ≤ cs.votes.round := by
  rcases h.inStep with ⟨h1, h2⟩ | ⟨h1, -⟩ <;> omega

theorem Booked.of_frame {C : NCBlock → Prop} (h : Booked cs)
    (hf : Frame (fun r => r = cs.round) C cs cs') : Booked cs' := by
  obtain ⟨h1, h2, h3, h4, h5, h6⟩ := h
  rw [← hf.votes] at h3 h4 h5 h6
  rw [← hf.voteSignAggr] at h4 h5
  rw [← hf.round] at h1 h2 h6
  exact ⟨h1, h2, h3, h4, h5, h6.imp_right fun hstep => ⟨hstep.1, fun heq => hstep.2 (hf.step heq)⟩⟩

theorem VotesInRound.of_frame {C : NCBlock → Prop} {cs₁ : ConsensusState}
    (hout : cs₁.out = cs.out) (hf : Frame (fun r => r = cs₁.round) C cs₁ cs') :
    VotesInRound cs cs' := by
  obtain ⟨new, hnew, hwithin⟩ := hf.out
  refine ⟨new, hnew.trans (by rw [hout]), fun vote hmem => ?_⟩
  obtain ⟨r, rfl, hr⟩ := hwithin _ hmem
  rw [hr, hf.round]

/-- **Opening the next round** does not panic and keeps the books. -/
theorem Booked.openRound (h : Booked cs) {round : ℤ} (hle : cs.round ≤ round)
    (hsame : cs.round = round → cs.step = .newHeight) (hint : round + 1 ≤ maxInt)
    (hnext : round ≤ cs.round + 1) :
    Meets GoPanic.Other (fun cs₁ => (Booked cs₁ ∧ cs₁.votes.round ≠ 0 ∧ cs₁.out = cs.out) ∧
      cs₁.round = round) (cs.openRound round) := by
  have hnonneg := h.nonneg
  have hwrap : wrapInt (round + 1) = round + 1 :=
    wrapInt_of_isInt ⟨by unfold minInt; omega, hint⟩
  have hnew : cs.votes.round = 0 ∨ cs.votes.round < round + 1 := by
    rcases h.inStep with ⟨h1, -⟩ | ⟨h1, h2⟩
    · exact .inl h1
    · refine .inr (by_contra fun hge => h2 (hsame ?_))
      omega
  have haggr : cs.voteSignAggr.round = 0 ∨ cs.voteSignAggr.round < round + 1 := h.same ▸ hnew
  obtain ⟨aggrs, haggrs, hround₁, hopens₁, hmono₁⟩ :=
    HeightVoteSignAggr.setRound_opens haggr
  obtain ⟨votes, hvotes, hheight, hround₂, hopens₂, hmono₂⟩ :=
    HeightVoteSet.setRound_opens h.height hnew
  have hall : ∀ r, 0 ≤ r → r ≤ round + 1 → votes.Opens r ∧ aggrs.Opens r := by
    intro r hlo hhi
    by_cases hr : r ≤ cs.votes.round
    · obtain ⟨hv, ha⟩ := h.opens r hlo hr
      exact ⟨hmono₂ r hv, hmono₁ r ha⟩
    · exact ⟨hopens₂ r (by omega) hhi, hopens₁ r (by rw [h.same]; omega) hhi⟩
  have hne : votes.round ≠ 0 := by omega
  have hinStep : votes.round = 0 ∧ round = 0 ∨
      votes.round = round + 1 ∧ RoundStepType.newRound ≠ .newHeight := .inr ⟨hround₂, by decide⟩
  unfold ConsensusState.openRound
  split <;> simp only [updateRoundStep, clearRound, hwrap, haggrs, hvotes, bind, Except.bind] <;>
    exact ⟨⟨⟨hnonneg.trans hle, hint, hheight, hround₁.trans hround₂.symm,
      by rw [hround₂]; exact hall, hinStep⟩, hne, rfl⟩, rfl⟩

/-- **Going back to a lower round** does not panic and keeps the books. -/
theorem Booked.lowerRound (h : Booked cs) {round : ℤ} (hnonneg : 0 ≤ round)
    (hlt : round < cs.round) (i : ℤ) :
    ∃ cs₁, ConsensusState.lowerRound { cs with vrfValIndex := i } round = .ok cs₁ ∧
      (Booked cs₁ ∧ cs₁.votes.round ≠ 0 ∧ cs₁.out = cs.out) ∧ cs₁.round = round := by
  have hint := h.isInt
  have hahead : cs.votes.round = cs.round + 1 := by
    rcases h.inStep with ⟨-, h2⟩ | ⟨h1, -⟩
    · omega
    · exact h1
  have hwrap : wrapInt (round + 1) = round + 1 :=
    wrapInt_of_isInt ⟨by unfold minInt; omega, by omega⟩
  obtain ⟨aggrs, haggrs, hround₁, hopens₁⟩ :=
    @HeightVoteSignAggr.resetTop2Round_opens cs.voteSignAggr (round + 1) (by omega)
      (by rw [h.same]; omega) fun r hlo hhi => (h.opens r hlo (h.same ▸ hhi)).2
  obtain ⟨votes, hvotes, hheight, hround₂, hopens₂⟩ :=
    @HeightVoteSet.resetTop2Round_opens cs.votes (round + 1) h.height (by omega) (by omega)
      fun r hlo hhi => (h.opens r hlo hhi).1
  unfold ConsensusState.lowerRound
  simp only [updateRoundStep, clearRound, hwrap, haggrs, hvotes, bind, Except.bind]
  refine ⟨_, rfl, ?_⟩
  exact ⟨⟨⟨hnonneg, by dsimp only; omega, hheight, hround₁.trans hround₂.symm, fun r hlo hhi =>
    ⟨hopens₂ r hlo (hround₂ ▸ hhi), hopens₁ r hlo (hround₂ ▸ hhi)⟩,
    .inr ⟨hround₂, by simp⟩⟩, by dsimp only; omega, rfl⟩, rfl⟩

/-- **One timely input** keeps the books, does not panic in the height sets, and votes in the
round it leaves the validator in. -/
theorem Booked.handle (h : Booked cs) {input : ℤ × Event} (htimely : Timely cs input) :
    Meets GoPanic.Other (fun cs' => Booked cs' ∧ (cs.votes.round ≠ 0 → cs'.votes.round ≠ 0) ∧
      VotesInRound cs cs') (cs.handle env input) := by
  have hfollows : Meets GoPanic.Other
      (Follows (fun cs₁ => Booked cs₁ ∧ (cs.votes.round ≠ 0 → cs₁.votes.round ≠ 0) ∧
        cs₁.out = cs.out) (fun r q => q = r) (fun _ => True) cs) (cs.handle env input) := by
    have hover : ∀ cs₁, HandsOver env (fun _ => True) cs₁ := fun _ _ _ _ _ _ _ _ _ _ => trivial
    refine handle_follows (P := fun r q => q = r) (fun _ h => h) (fun _ => rfl) (hover cs)
      (fun cs₁ _ => hover cs₁) ?_ ?_ ?_ ?_ ?_
    · intro ti hti hle
      exact le_antisymm (htimely.timeout hti).1 hle
    · intro ti round hti hround hle hsame
      obtain ⟨hti', hmax⟩ := htimely.timeout hti
      have hnonneg := h.nonneg
      rcases hround with ⟨-, rfl⟩ | ⟨-, hge, rfl⟩
      · exact (h.openRound hle hsame (by omega) (by omega)).mono
          fun _ _ h₁ => ⟨⟨h₁.1.1, fun _ => h₁.1.2.1, h₁.1.2.2⟩, h₁.2⟩
      · have heq : ti.round = cs.round := le_antisymm hti' hge
        have hwrap : wrapInt (ti.round + 1) = cs.round + 1 := by
          rw [heq]
          exact wrapInt_of_isInt ⟨by unfold minInt; omega, by omega⟩
        rw [hwrap] at hle hsame ⊢
        exact (h.openRound hle hsame (by omega) le_rfl).mono
          fun _ _ h₁ => ⟨⟨h₁.1.1, fun _ => h₁.1.2.1, h₁.1.2.2⟩, h₁.2⟩
    · intro x key i hx hlt _
      obtain ⟨cs₁, hlow, h₁, hround⟩ := h.lowerRound (htimely.proposal hx) hlt i
      rw [hlow]
      exact ⟨⟨h₁.1, fun _ => h₁.2.1, h₁.2.2⟩, hround⟩
    · intro s key _ _
      obtain ⟨hround, hopens⟩ := @HeightVoteSignAggr.addSignAggr_opens cs.voteSignAggr s
      exact ⟨⟨h.nonneg, h.isInt, h.height, hround.trans h.same, fun r hlo hhi =>
        ⟨(h.opens r hlo hhi).1, hopens r (h.opens r hlo hhi).2⟩, h.inStep⟩, fun hne => hne, rfl⟩
    · intro x key p f i _ hround _ _
      have hopen : cs.votes.Opens (ofUint64 x.round) :=
        hround ▸ (h.opens cs.round h.nonneg h.round_le).1
      refine (HeightVoteSet.addVote_opens hopen).mono fun r _ hr => ?_
      obtain ⟨hheight, hsame, hmono⟩ := hr
      exact ⟨⟨h.nonneg, h.isInt, by rw [hheight]; exact h.height, h.same.trans hsame.symm,
        fun q hlo hhi => ⟨hmono q (h.opens q hlo (hsame ▸ hhi)).1, (h.opens q hlo (hsame ▸ hhi)).2⟩,
        by rw [hsame]; exact h.inStep⟩, fun hne => hsame.trans_ne hne, rfl⟩
  refine hfollows.mono fun cs' _ hcs' => ?_
  obtain ⟨cs₁, hcs₁, hf⟩ := hcs'
  rcases hcs₁ with rfl | ⟨hbooked, hentered, hout⟩
  · exact ⟨h.of_frame hf, by rw [hf.votes]; exact id, .of_frame rfl hf⟩
  · exact ⟨hbooked.of_frame hf, by rw [hf.votes]; exact hentered, .of_frame hout hf⟩

theorem Started.booked (h : Started env cs₀) : Booked cs₀ := by
  obtain ⟨ntcExtra, validators, pv, fromMiner, h⟩ := h
  unfold startNewHeight at h
  obtain ⟨votes, hvotes, h⟩ := Steps.bind_eq_ok.1 h
  cases h
  obtain ⟨hpos, hheight, hround, hopen⟩ := HeightVoteSet.new_eq_ok hvotes
  refine ⟨le_rfl, (by decide : (0 : ℤ) + 1 ≤ maxInt), hheight.trans_ne hpos, hround.symm,
    fun r hlo hhi => ?_, .inl ⟨hround, rfl⟩⟩
  obtain rfl : r = 0 := le_antisymm (hhi.trans_eq hround) hlo
  exact ⟨hopen, Option.isSome_iff_exists.2 ⟨_, AList.lookup_insert _⟩⟩

theorem Booked.run (h : Booked cs) {inputs : List (ℤ × Event)}
    (hmeets : RunMeets env Timely cs inputs) (hrun : run env cs inputs = .ok cs') :
    Booked cs' ∧ (cs.votes.round ≠ 0 → cs'.votes.round ≠ 0) :=
  hmeets.invariant (I := fun cs₁ => Booked cs₁ ∧ (cs.votes.round ≠ 0 → cs₁.votes.round ≠ 0))
    (fun _ _ _ htimely hstep h₁ =>
      let h₂ := (h₁.1.handle htimely).of_eq_ok hstep
      ⟨h₂.1, fun hne => h₂.2.1 (h₁.2 hne)⟩) hrun ⟨h, id⟩

theorem Booked.holdsRounds (h : Booked cs) (hentered : cs.votes.round ≠ 0) : HoldsRounds cs := by
  obtain ⟨hround, -⟩ := h.inStep.resolve_left fun hzero => hentered hzero.1
  intro r hlo hhi
  exact h.opens r hlo (hround ▸ hhi)

/-- `enterNewRound(height, 0)` at the start of a height enters the first round. -/
theorem Booked.enterNewRound_zero (h : Booked cs) (hstep : cs.step = .newHeight) {now : ℤ}
    (henter : cs.enterNewRound env now cs.height 0 = .ok cs') :
    Booked cs' ∧ cs'.votes.round ≠ 0 := by
  obtain ⟨-, hzero⟩ := h.inStep.resolve_right fun hr => hr.2 hstep
  rw [enterNewRound_eq, if_neg (by simp [hzero, hstep])] at henter
  obtain ⟨cs₁, hopen, hwait⟩ := Steps.bind_eq_ok.1 henter
  obtain ⟨⟨hbooked, hentered, -⟩, hround⟩ :=
    (h.openRound hzero.le (fun _ => hstep) (by decide) (by omega)).of_eq_ok hopen
  have hframe := (framed_waitOrPropose (P := fun r => r = cs₁.round) (C := fun _ => True) rfl
    cs.height hround.symm).of_eq_ok hwait
  exact ⟨hbooked.of_frame hframe, by rw [hframe.votes]; exact hentered⟩

/-- **The books of the rounds.**  In every run of timely inputs, once `enterNewRound(height, 0)`
has been executed: both height sets hold the rounds up to one above the current one, a further
timely input does not make `SetRound`, `ResetTop2Round` or `addRound` panic, and the votes it
signs are of the round whose step it executes. -/
theorem rounds_booked (hstart : Started env cs₀) {before after : List (ℤ × Event)} {now : ℤ}
    {cs₁ cs₂ : ConsensusState} (hbefore : RunMeets env Timely cs₀ before)
    (hrun₁ : run env cs₀ before = .ok cs₁) (hstep : cs₁.step = .newHeight)
    (henter : cs₁.enterNewRound env now cs₁.height 0 = .ok cs₂)
    (hafter : RunMeets env Timely cs₂ after) (hrun₂ : run env cs₂ after = .ok cs) :
    HoldsRounds cs ∧ ∀ input, Timely cs input →
      (∀ p, cs.handle env input = .error p → p.byRounds = false) ∧
      ∀ cs', cs.handle env input = .ok cs' → HoldsRounds cs' ∧ VotesInRound cs cs' := by
  obtain ⟨hbooked₁, -⟩ := hstart.booked.run hbefore hrun₁
  obtain ⟨hbooked₂, hentered₂⟩ := hbooked₁.enterNewRound_zero hstep henter
  obtain ⟨hbooked, hentered⟩ := hbooked₂.run hafter hrun₂
  refine ⟨hbooked.holdsRounds (hentered hentered₂), fun input htimely => ⟨fun p hp => ?_, ?_⟩⟩
  · exact (hbooked.handle htimely).of_eq_error hp
  · intro cs' hcs'
    obtain ⟨hbooked', hentered', hvotes⟩ := (hbooked.handle htimely).of_eq_ok hcs'
    exact ⟨hbooked'.holdsRounds (hentered' (hentered hentered₂)), hvotes⟩

end ConsensusState

open ConsensusState

/-- The three timeouts of round `0` and the first of round `1`. -/
def PlainEnv.twoRounds : List (ℤ × Event) :=
  [(2, .timeout ⟨1, 0, .propose⟩), (3, .timeout ⟨1, 0, .prevoteWait⟩),
    (4, .timeout ⟨1, 0, .precommitWait⟩), (5, .timeout ⟨1, 1, .propose⟩)]

/-- The books are right along two rounds without a proposal. -/
theorem rounds_booked_twoRounds : ∃ cs₀ cs₂ cs, Started PlainEnv.env cs₀ ∧
    cs₀.enterNewRound PlainEnv.env 1 cs₀.height 0 = .ok cs₂ ∧
    RunMeets PlainEnv.env Timely cs₂ PlainEnv.twoRounds ∧
    run PlainEnv.env cs₂ PlainEnv.twoRounds = .ok cs ∧ cs.round = 1 ∧ HoldsRounds cs := by
  obtain ⟨cs₀, hstart, hstep, cs₂, henter, hmeets, cs, hrun, hround⟩ :
      ∃ cs₀, PlainEnv.start 1 = .ok cs₀ ∧ cs₀.step = .newHeight ∧
        ∃ cs₂, cs₀.enterNewRound PlainEnv.env 1 cs₀.height 0 = .ok cs₂ ∧
          RunMeets PlainEnv.env Timely cs₂ PlainEnv.twoRounds ∧
          ∃ cs, run PlainEnv.env cs₂ PlainEnv.twoRounds = .ok cs ∧ cs.round = 1 := by
    decide +kernel
  have hstarted : Started PlainEnv.env cs₀ := ⟨_, _, _, _, hstart⟩
  have hbefore : RunMeets PlainEnv.env Timely cs₀ [] := trivial
  exact ⟨cs₀, cs₂, cs, hstarted, henter, hmeets, hrun, hround,
    (rounds_booked hstarted hbefore rfl hstep henter hmeets hrun).1⟩

/-- A validator in round `1` gets the late proposal of round `0`. -/
def PlainEnv.lateProposal : List (ℤ × Event) :=
  PlainEnv.twoRounds ++ [(6, .msg (PlainEnv.proposal 2 0 7) "p")]

/-- The effect is a vote in a round. -/
def Effect.votesIn (round : ℕ) : Effect → Bool
  | .signVote vote => vote.round == round
  | _ => false

theorem Effect.votesIn_eq_true {round : ℕ} {x : Effect} :
    x.votesIn round = true ↔ ∃ vote, x = .signVote vote ∧ vote.round = round := by
  cases x <;> simp [Effect.votesIn]

/-- **A timeout of the round that was left** makes the validator precommit in round `0` on the way
into round `1`, whose next round neither height set holds; **a proposal of round `-1`** makes
`ResetTop2Round` panic. -/
theorem rounds_not_booked :
    (∃ cs₀ cs₂ cs cs', Started PlainEnv.env cs₀ ∧ cs₀.step = .newHeight ∧
      cs₀.enterNewRound PlainEnv.env 1 cs₀.height 0 = .ok cs₂ ∧
      RunMeets PlainEnv.env (fun cs input => cs.Fires input.2) cs₂ PlainEnv.lateProposal ∧
      run PlainEnv.env cs₂ PlainEnv.lateProposal = .ok cs ∧
      cs.Fires (.timeout ⟨1, 1, .prevoteWait⟩) ∧
      cs.handle PlainEnv.env (7, .timeout ⟨1, 1, .prevoteWait⟩) = .ok cs' ∧
      ¬ HoldsRounds cs' ∧ ¬ VotesInRound cs cs') ∧
    ∃ cs₀ cs₂ p, Started PlainEnv.env cs₀ ∧ cs₀.step = .newHeight ∧
      cs₀.enterNewRound PlainEnv.env 1 cs₀.height 0 = .ok cs₂ ∧
      cs₂.handle PlainEnv.env (2, .msg (PlainEnv.proposal 1 (-1) 7) "p") = .error p ∧
      p.byRounds = true := by
  constructor
  · obtain ⟨cs₀, hstart, hstep, cs₂, henter, hfires, cs, hrun, hfire, cs', hhandle, hround, hclosed,
        hout, hvote⟩ :
        ∃ cs₀, PlainEnv.start 1 = .ok cs₀ ∧ cs₀.step = .newHeight ∧
          ∃ cs₂, cs₀.enterNewRound PlainEnv.env 1 cs₀.height 0 = .ok cs₂ ∧
            RunMeets PlainEnv.env (fun cs input => cs.Fires input.2) cs₂ PlainEnv.lateProposal ∧
            ∃ cs, run PlainEnv.env cs₂ PlainEnv.lateProposal = .ok cs ∧
              cs.Fires (.timeout ⟨1, 1, .prevoteWait⟩) ∧
              ∃ cs', cs.handle PlainEnv.env (7, .timeout ⟨1, 1, .prevoteWait⟩) = .ok cs' ∧
                cs'.round = 1 ∧ ¬ cs'.votes.Opens 2 ∧ cs'.out = cs'.out.take 3 ++ cs.out ∧
                (cs'.out.take 3).any (Effect.votesIn 0) = true := by
      decide +kernel
    refine ⟨cs₀, cs₂, cs, cs', ⟨_, _, _, _, hstart⟩, hstep, henter, hfires, hrun, hfire, hhandle,
      fun hholds => ?_, ?_⟩
    · exact hclosed (hholds 2 (by decide) (by omega)).1
    · rintro ⟨new, hnew, hvotes⟩
      obtain ⟨x, hx, hround₀⟩ := List.any_eq_true.1 hvote
      rw [List.append_cancel_right (hout.symm.trans hnew)] at hx
      obtain ⟨vote, rfl, hvote₀⟩ := Effect.votesIn_eq_true.1 hround₀
      have hvote₁ := hvotes vote hx
      rw [hvote₀, hround] at hvote₁
      exact absurd hvote₁ (by decide)
  · obtain ⟨cs₀, hstart, hstep, cs₂, henter, h⟩ :
        ∃ cs₀, PlainEnv.start 3 = .ok cs₀ ∧ cs₀.step = .newHeight ∧
          ∃ cs₂, cs₀.enterNewRound PlainEnv.env 1 cs₀.height 0 = .ok cs₂ ∧
            Steps.fails (cs₂.handle PlainEnv.env (2, .msg (PlainEnv.proposal 1 (-1) 7) "p"))
              GoPanic.byRounds = true := by
      decide +kernel
    obtain ⟨p, hp, hrounds⟩ := Steps.fails_eq_true.1 h
    exact ⟨cs₀, cs₂, p, ⟨_, _, _, _, hstart⟩, hstep, henter, hp, hrounds⟩

end Consensus
end LigoChain
