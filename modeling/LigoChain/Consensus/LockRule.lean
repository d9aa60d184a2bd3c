/-
# The lock rule

A validator that never goes back to a lower round keeps its lock, and the round of the
lock only grows, until it holds a verified aggregate of prevotes, of a round above the
lock, for something else (`run_lockRule`).  Locks change in `enterPrecommit` and in
`setMaj23SignAggr` (`chain/consensus/tendermint/consensus/state.go`).

Two things are asked of the run.  It does not go back: after `enterLowerRound` the
aggregate that replaces the lock can be of a round below it
(`lock_replaced_after_enterLowerRound`).  And the prevote aggregates that arrive stand
for the block that was signed: the code looks at `Maj23`, and the signatures are over
`BlockID` (`Consensus/SignAggrSound.lean`).

The block of a lock stays the same object; `finalizeCommit` may write the commit into it
(`SameBlock`).
-/

import LigoChain.Consensus.NoEquivocation

namespace LigoChain
namespace Consensus

/-- The state holds a verified aggregate of prevotes, of a round above `round`, for something
other than `block`. -/
structure Releases (L : Libs) (v : View) (block : NCBlock) (round : ℤ) (s : SignAggr) : Prop where
  verified : Verified L v.height v.validators s
  type_ : s.type_ = voteTypePrevote
  held : v.voteSignAggr.prevotes s.round = some s ∨ v.prevoteMaj23SignAggr = some s
  round_lt : round < s.round
  other : NCBlock.hashesTo L (some block) s.blockID.hash = .ok false

/-- **The lock rule** for one transition: a lock is kept and its round does not fall, or an
aggregate that releases it is held. -/
def LockRule (L : Libs) (v v' : View) : Prop :=
  ∀ block, v.lockedBlock = some block →
    (∃ block', v'.lockedBlock = some block' ∧ SameBlock block block' ∧
      v.lockedRound ≤ v'.lockedRound) ∨
    ∃ s, Releases L v' block v.lockedRound s

/-- The signatures of the aggregate are over the block it stands for. -/
def Genuine (s : SignAggr) : Prop := s.type_ = voteTypePrevote → s.maj23 = s.blockID

/-- If the input is an aggregate, it is a genuine one. -/
def Event.GenuineAggr (e : Event) : Prop :=
  ∀ s peerKey, e = .msg (.maj23SignAggr (some s)) peerKey → Genuine s

instance (s : SignAggr) : Decidable (Genuine s) := inferInstanceAs (Decidable (_ → _))

instance (e : Event) : Decidable e.GenuineAggr :=
  match e with
  | .msg (.maj23SignAggr (some s)) _ =>
    decidable_of_iff (Genuine s) ⟨fun h t k ht => by cases ht; exact h, fun h => h s _ rfl⟩
  | .msg (.maj23SignAggr none) _ | .msg (.proposal _) _ | .msg (.blockPart _ _ _) _
  | .msg (.vote _) _ | .timeout _ | .miner _ | .gossip _ => .isTrue fun _ _ h => by cases h

variable {L : Libs} {e : Event} {v v' : View} {block : NCBlock} {round : ℤ}

/-- The lock as it is inside the handling of one input: kept as it was, or written to by
`finalizeCommit`, which no prevote aggregate leads to. -/
def Kept (e : Event) (v : View) (block : NCBlock) (round : ℤ) : Prop :=
  ∃ block', v.lockedBlock = some block' ∧ round ≤ v.lockedRound ∧
    (block' = block ∨ SameBlock block block' ∧ v.step = .commit ∧ ¬ e.IsPrevoteAggr)

/-- The lock was released: the aggregate is stored by round, or it is the one being handled. -/
def Released (L : Libs) (e : Event) (v : View) (block : NCBlock) (round : ℤ) : Prop :=
  ∃ s, Releases L v block round s ∧ (v.voteSignAggr.prevotes s.round = some s ∨
    v.prevoteMaj23SignAggr = some s ∧ ∃ peerKey, e = .msg (.maj23SignAggr (some s)) peerKey)

theorem Kept.frame (h : Kept e v block round) (hblock : v'.lockedBlock = v.lockedBlock)
    (hround : v'.lockedRound = v.lockedRound) (hstep : v'.step = v.step ∨ v.step ≠ .commit) :
    Kept e v' block round := by
  obtain ⟨block', hsome, hle, hsame⟩ := h
  refine ⟨block', hblock.trans hsome, hle.trans hround.ge, hsame.imp_right ?_⟩
  rintro ⟨hsame, hcommit, he⟩
  exact ⟨hsame, (hstep.resolve_right (not_not.2 hcommit)).trans hcommit, he⟩

/-- Before the step `Commit` nothing was written into the block. -/
theorem Kept.eq_of_ne_commit (h : Kept e v block round) (hstep : v.step ≠ .commit) :
    v.lockedBlock = some block ∧ round ≤ v.lockedRound := by
  obtain ⟨block', hsome, hle, rfl | ⟨-, hcommit, -⟩⟩ := h
  · exact ⟨hsome, hle⟩
  · exact absurd hcommit hstep

theorem ne_commit_of_val_lt {step : RoundStepType} (h : step.val < RoundStepType.commit.val) :
    step ≠ .commit := by
  rintro rfl
  exact absurd h (lt_irrefl _)

/-- A release stays visible to the end of the input. -/
theorem Move.released (h : Move L e v v') (hv : Released L e v block round) :
    Released L e v' block round := by
  obtain ⟨s, hs, hheld⟩ := hv
  obtain ⟨hheight, hvalidators, -⟩ := h.fixed
  have hheld' : v'.voteSignAggr.prevotes s.round = some s ∨
      v'.prevoteMaj23SignAggr = some s ∧ ∃ peerKey, e = .msg (.maj23SignAggr (some s)) peerKey := by
    rcases hheld with hstored | ⟨hlast, peerKey, he⟩
    · exact .inl (h.prevotes_keep hstored)
    · refine .inr ⟨?_, peerKey, he⟩
      cases h with
      | enterRound _ _ _ htimeout =>
        obtain ⟨ti, htimeout⟩ := htimeout
        cases he.symm.trans htimeout
      | recordPrevotes t peerKey' he' | unlockByPrevotes t peerKey' he' =>
        cases he.symm.trans he'
        rfl
      | _ => exact hlast
  refine ⟨s, ⟨?_, hs.type_, hheld'.imp_right And.left, hs.round_lt, hs.other⟩, hheld'⟩
  rw [hheight, hvalidators]
  exact hs.verified

/-- The prevote aggregate of the current round releases a lock that is not of this round. -/
theorem released_of_hasPolka {s : SignAggr} (hlock : LockInv v) (hstored : StoredInv L Genuine v)
    (hstep : v.step.val < RoundStepType.precommit.val) (hpolka : HasPolka v s)
    (hother : NCBlock.hashesTo L v.lockedBlock s.maj23.hash = .ok false)
    (hkept : Kept e v block round) (hheight : v'.height = v.height)
    (hvalidators : v'.validators = v.validators) (haggrs : v'.voteSignAggr = v.voteSignAggr) :
    Released L e v' block round := by
  obtain ⟨hsome, hle⟩ := hkept.eq_of_ne_commit (ne_commit_of_val_lt (hstep.trans (by decide)))
  obtain ⟨hverified, hround, htype, hgenuine⟩ := hstored.prevotes _ _ hpolka.1
  have hlocked : v.lockedBlock.isSome = true := by rw [hsome]; rfl
  have hlt : v.lockedRound < v.round :=
    lt_of_le_of_ne (hlock.le hlocked) fun heq => absurd (hlock.step hlocked heq) (not_le.2 hstep)
  have hheld : v'.voteSignAggr.prevotes s.round = some s := by
    rw [haggrs, hround]
    exact hpolka.1
  refine ⟨s, ⟨?_, htype, .inl hheld, ?_, ?_⟩, .inl hheld⟩
  · rw [hheight, hvalidators]
    exact hverified
  · rw [hround]
    exact hle.trans_lt hlt
  · rw [← hgenuine htype, ← hsome]
    exact hother

/-- **One move keeps the lock or releases it.** -/
theorem Move.kept (h : Move L e v v') (he : e.GenuineAggr) (hlock : LockInv v)
    (hstored : StoredInv L Genuine v) (hkept : Kept e v block round) :
    Kept e v' block round ∨ Released L e v' block round := by
  cases h with
  | emit | schedule | gossipAggr | countVote | sendAggr | acceptProposal | addPart | completeBlock
  | storeAggr | recordPrevotes | recordPrecommits => exact .inl (hkept.frame rfl rfl (.inl rfl))
  | startRound aggrs votes htimeout hstep =>
    exact .inl (hkept.frame rfl rfl (.inr (by rw [hstep]; simp)))
  | enterRound r aggrs votes htimeout hround hint hstep =>
    exact .inl (hkept.frame rfl rfl (.inr (ne_commit_of_val_lt (hstep.trans_lt (by decide)))))
  | propose new hstep | prevoteWait hstep | precommitNil new hstep =>
    exact .inl (hkept.frame rfl rfl (.inr (ne_commit_of_val_lt (hstep.trans (by decide)))))
  | commit commitRound b parts hstep =>
    exact .inl (hkept.frame rfl rfl (.inr (ne_commit_of_val_lt hstep)))
  | prevote blockID new hstep =>
    exact .inl (hkept.frame rfl rfl (.inr (ne_commit_of_val_lt (hstep.trans_lt (by decide)))))
  | completeAndPrevote parts parts' b blockID new timeouts hparts hcount htotal hfull hproposal
      hstep =>
    exact .inl (hkept.frame rfl rfl (.inr (ne_commit_of_val_lt (hstep.trans_lt (by decide)))))
  | precommitRelock s new hstep hpolka hsame hvoted =>
    obtain ⟨hsome, hle⟩ := hkept.eq_of_ne_commit (ne_commit_of_val_lt (hstep.trans (by decide)))
    exact .inl ⟨block, hsome, hle.trans (hlock.le (by rw [hsome]; rfl)), .inl rfl⟩
  | precommitUnlock s b parts new hstep hpolka hother =>
    exact .inr (released_of_hasPolka hlock hstored hstep hpolka hother hkept rfl rfl rfl)
  | precommitLock s b new hstep hpolka hother =>
    exact .inr (released_of_hasPolka hlock hstored hstep hpolka hother hkept rfl rfl rfl)
  | unlockByPrevotes s peerKey hmsg hverified hround htype hlocked hother =>
    obtain ⟨block', hsome, hle, rfl | ⟨-, -, hnot⟩⟩ := hkept
    · refine .inr ⟨s, ⟨hverified, htype, .inr rfl, hle.trans_lt hlocked, ?_⟩,
        .inr ⟨rfl, peerKey, hmsg⟩⟩
      rw [← he s peerKey hmsg htype, ← hsome]
      exact hother
    · exact absurd ⟨s, peerKey, hmsg, htype⟩ hnot
  | finalize s b proposalBlock lockedBlock new hnot hstep hcommit hblock hwritten =>
    obtain ⟨block', hsome, hle, hsame⟩ := hkept
    have hsame' : SameBlock block block' := by
      rcases hsame with rfl | ⟨hsame, -⟩
      · exact SameBlock.refl _
      · exact hsame
    rcases hwritten with rfl | ⟨b₁, b₂, hb₁, rfl, hb₂⟩
    · exact .inl ⟨block', hsome, hle, .inr ⟨hsame', hstep, hnot⟩⟩
    · obtain rfl := Option.some.inj (hsome.symm.trans hb₁)
      exact .inl ⟨b₂, rfl, hle, .inr ⟨hsame'.trans hb₂, hstep, hnot⟩⟩

/-- **The lock rule for the moves of one input.** -/
theorem Moves.lockRule (h : Moves L e v v') (he : e.GenuineAggr) (hv : LocalInv v)
    (hstored : StoredInv L Genuine v) : LockRule L v v' := by
  intro block hblock
  have hstart : Kept e v block v.lockedRound := ⟨block, hblock, le_rfl, .inl rfl⟩
  have hend : (LocalInv v' ∧ StoredInv L Genuine v') ∧
      (Kept e v' block v.lockedRound ∨ Released L e v' block v.lockedRound) := by
    induction h with
    | refl => exact ⟨⟨hv, hstored⟩, .inl hstart⟩
    | tail _ hmove ih =>
      obtain ⟨⟨hinv, hst⟩, hlock⟩ := ih
      refine ⟨⟨hmove.localInv hinv, hmove.storedInv he hst⟩, ?_⟩
      rcases hlock with hkept | hreleased
      · exact hmove.kept he hinv.lock hst hkept
      · exact .inr (hmove.released hreleased)
  rcases hend.2 with ⟨block', hsome, hle, hsame⟩ | ⟨s, hs, -⟩
  · refine .inl ⟨block', hsome, ?_, hle⟩
    rcases hsame with rfl | ⟨hsame, -⟩
    · exact SameBlock.refl _
    · exact hsame
  · exact .inr ⟨s, hs⟩

namespace ConsensusState

variable {env : Env} {cs₀ cs cs' : ConsensusState} {inputs : List (ℤ × Event)} {input : ℤ × Event}

/-- Timeouts that fire were scheduled, no input takes the validator back, and prevote
aggregates stand for the block that was signed. -/
abbrev ForwardGenuine (env : Env) (cs : ConsensusState) (input : ℤ × Event) : Prop :=
  FiresForward env cs input ∧ input.2.GenuineAggr

theorem Started.storedInv (h : Started env cs) (P : SignAggr → Prop) : StoredInv L P cs.view := by
  obtain ⟨extra, validators, pv, block, h⟩ := h
  exact startNewHeight_storedInv P h

theorem run_lockInv (hstart : Started env cs) (hmeets : RunMeets env (ForwardGenuine env) cs inputs)
    (hrun : run env cs inputs = .ok cs') :
    LocalInv cs'.view ∧ StoredInv env.libs Genuine cs'.view := by
  refine Steps.RunMeets.invariant (I := fun cs => LocalInv cs.view ∧ StoredInv env.libs Genuine cs.view)
    (fun cs cs' input hC hstep hinv => ?_) hmeets hrun ⟨hstart.localInv, hstart.storedInv _⟩
  have hmoves := moves_of_forward hinv.1 hC.1.1 (hC.1.2.round_le hstep) hstep
  exact ⟨hmoves.preserves (fun _ _ => Move.localInv) hinv.1,
    hmoves.preserves (fun _ _ h => h.storedInv hC.2) hinv.2⟩

end ConsensusState

open ConsensusState

/-- The third validator goes through rounds `0` and `1` without a proposal, and locks on the
block of round `2`.  In round `3` the proposal of round `0` arrives, with its block. -/
def PlainEnv.lockInputs : List (ℤ × Event) :=
  [(7, .timeout ⟨1, 0, .newHeight⟩), (7, .timeout ⟨1, 0, .propose⟩),
    (7, .timeout ⟨1, 0, .prevoteWait⟩), (7, .timeout ⟨1, 0, .precommitWait⟩),
    (8, .timeout ⟨1, 1, .waitForMinerBlock⟩), (8, .timeout ⟨1, 1, .propose⟩),
    (8, .timeout ⟨1, 1, .prevoteWait⟩), (8, .timeout ⟨1, 1, .precommitWait⟩),
    (9, .msg (PlainEnv.proposal 1 2 9) "a"), (9, .msg (PlainEnv.blockPart 2 9) "a"),
    (9, .msg (.maj23SignAggr (some (PlainEnv.signAggr 2 voteTypePrevote 9))) "a"),
    (10, .timeout ⟨1, 2, .precommitWait⟩), (11, .msg (PlainEnv.proposal 2 0 7) "b"),
    (11, .msg (PlainEnv.blockPart 0 7) "b")]

/-- The aggregate of prevotes of round `0`. -/
def PlainEnv.lowerPrevotes : ℤ × Event :=
  (12, .msg (.maj23SignAggr (some (PlainEnv.signAggr 0 voteTypePrevote 7))) "b")

end Consensus
end LigoChain
