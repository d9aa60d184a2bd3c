/-
# A validator is a voter with a lock

The state machine of `Consensus/Moves.lean` refines the abstract voter of
`Lib/LockVoting.lean`.  The values that are voted for are block hashes.  `Simulates`
relates the two: the rounds are equal, the lock of the voter is the hash of the locked
block with the round of the lock, and every vote the validator signed and every prevote
aggregate it stored by round are known to the voter.

Each move of the validator is matched by steps of the voter (`Move.simulates`), if the
prevote aggregate being handled, if there is one, stands for prevotes that were cast.
In the step `Commit` the validator votes no more, and its lock does not matter.
-/

import LigoChain.Consensus.LocalInvariant
import LigoChain.Lib.LockVoting

namespace LigoChain
namespace Consensus

open GoInt LockVoting

/-- The lock of a voter that a locked block and a locked round stand for. -/
def LockIs (L : Libs) (block : Option NCBlock) (round : ℤ) (lock : Option (Bytes × ℤ)) : Prop :=
  match block with
  | none => lock = none
  | some b => ∃ hash, NCBlock.hash L (some b) = .ok hash ∧ hash ≠ [] ∧ lock = some (hash, round)

/-- The voter knows at least what the validator did. -/
structure Simulates (L : Libs) (v : View) (w : Voter Bytes) : Prop where
  round : w.round = v.round
  lock : v.step ≠ .commit → LockIs L v.lockedBlock v.lockedRound w.lock
  prevoted : ∀ vote ∈ v.signedVotes, vote.type_ = voteTypePrevote →
    ((vote.round : ℤ), vote.blockID.hash) ∈ w.prevoted
  precommitted : ∀ vote ∈ v.signedVotes, vote.type_ = voteTypePrecommit → vote.blockID.hash ≠ [] →
    ((vote.round : ℤ), vote.blockID.hash) ∈ w.precommitted
  precommitted_le : ∀ p ∈ w.precommitted, p.1 ≤ v.round
  once : ∀ hash, (v.round, hash) ∈ w.precommitted → RoundStepType.precommit.val ≤ v.step.val
  seen : ∀ r s, v.voteSignAggr.prevotes r = some s → (r, s.maj23.hash) ∈ w.seen

variable {L : Libs} {e : Event} {v v' : View} {w : Voter Bytes} {polkas : Set (ℤ × Bytes)}

/-- A move in which the voter does nothing. -/
theorem Simulates.frame (h : Simulates L v w) (hround : v'.round = v.round)
    (hlock : v'.step ≠ .commit → v.step ≠ .commit ∧ v'.lockedBlock = v.lockedBlock ∧
      v'.lockedRound = v.lockedRound)
    (hvotes : v'.signedVotes = v.signedVotes) (hstep : v.step.val ≤ v'.step.val)
    (haggrs : ∀ r s, v'.voteSignAggr.prevotes r = some s → v.voteSignAggr.prevotes r = some s) :
    Simulates L v' w where
  round := h.round.trans hround.symm
  lock hne := by
    obtain ⟨hne', hblock, hlocked⟩ := hlock hne
    rw [hblock, hlocked]
    exact h.lock hne'
  prevoted := by rw [hvotes]; exact h.prevoted
  precommitted := by rw [hvotes]; exact h.precommitted
  precommitted_le := by rw [hround]; exact h.precommitted_le
  once := by
    rw [hround]
    exact fun hash hp => (h.once hash hp).trans hstep
  seen r s hs := h.seen r s (haggrs r s hs)

theorem Simulates.see (h : Simulates L v w) (p : ℤ × Bytes) :
    Simulates L v { w with seen := insert p w.seen } :=
  ⟨h.round, h.lock, h.prevoted, h.precommitted, h.precommitted_le, h.once,
    fun r s hs => Set.mem_insert_of_mem p (h.seen r s hs)⟩

theorem LockIs.of_hashesTo {block : Option NCBlock} {round : ℤ} {lock : Option (Bytes × ℤ)}
    {hash : Bytes} (h : LockIs L block round lock)
    (hsame : NCBlock.hashesTo L block hash = .ok true) : lock = some (hash, round) := by
  obtain ⟨-, hsome, hhash⟩ := NCBlock.hashesTo_eq_true hsame
  obtain ⟨b, rfl⟩ := Option.isSome_iff_exists.1 hsome
  obtain ⟨hash', hhash', -, hlock⟩ := h
  obtain rfl := Except.ok.inj (hhash.symm.trans hhash')
  exact hlock

/-- A hash that the locked block does not have, of a round above the lock, that was seen:
the voter gives its lock up. -/
theorem Simulates.unlock {p : ℤ × Bytes} (h : Simulates L v w) (hstep : v.step ≠ .commit)
    (hseen : p ∈ w.seen) (hround : v.lockedBlock.isSome = true → v.lockedRound < p.1)
    (hother : NCBlock.hashesTo L v.lockedBlock p.2 = .ok false) :
    Relation.ReflTransGen (Voter.Step polkas) w { w with lock := none } := by
  have hlock := h.lock hstep
  cases hblock : v.lockedBlock with
  | none =>
    rw [hblock] at hlock
    rw [show ({ w with lock := none } : Voter Bytes) = w by rw [← hlock]]
  | some b =>
    rw [hblock] at hlock hround hother
    obtain ⟨y, hy, hne, hlock⟩ := hlock
    have hne' := NCBlock.hashesTo_eq_false hother hy hne rfl
    exact .single (.unlock w y v.lockedRound p hlock hseen (hround rfl) hne'.symm)

theorem Voted.mem_append {type_ : ℕ} {blockID : BlockID} {new : List Effect} {votes : List Vote}
    {vote : Vote} (h : Voted v type_ blockID new)
    (hmem : vote ∈ new.filterMap Effect.signedVote ++ votes) :
    vote ∈ votes ∨ IsVote v type_ blockID vote := by
  refine (List.mem_append.1 hmem).symm.imp_right fun hnew => ?_
  rcases h.signs.1 with hnone | ⟨vote', hvote', hone⟩
  · rw [hnone] at hnew
    cases hnew
  · rw [hone] at hnew
    exact List.mem_singleton.1 hnew ▸ hvote'

/-- The prevote of a validator is a prevote of the voter. -/
theorem Simulates.prevote {blockID : BlockID} {new : List Effect} (h : Simulates L v w)
    (hr : RoundInv v) (hstep : v.step ≠ .commit) (hvoted : Voted v voteTypePrevote blockID new)
    (hkeeps : PrevoteKeepsLock L v blockID) (hround : v'.round = v.round)
    (hlock : v'.lockedBlock = v.lockedBlock ∧ v'.lockedRound = v.lockedRound)
    (hvotes : v'.signedVotes = new.filterMap Effect.signedVote ++ v.signedVotes)
    (hle : v.step.val ≤ v'.step.val) (haggrs : v'.voteSignAggr = v.voteSignAggr) :
    ∃ w', Relation.ReflTransGen (Voter.Step polkas) w w' ∧ Simulates L v' w' := by
  have hfree : ∀ y k, w.lock = some (y, k) → blockID.hash = y := by
    intro y k hy
    have hlocked := h.lock hstep
    cases hblock : v.lockedBlock with
    | none =>
      rw [hblock] at hlocked
      rw [show w.lock = none from hlocked] at hy
      simp at hy
    | some b =>
      rw [hblock] at hlocked
      obtain ⟨hash, hhash, -, hw⟩ := hlocked
      have hkept := hkeeps (by rw [hblock]; rfl)
      rw [hblock] at hkept
      obtain rfl := Except.ok.inj (hkept.symm.trans hhash)
      exact (Prod.mk.inj (Option.some.inj (hw.symm.trans hy))).1
  refine ⟨_, .single (.prevote w blockID.hash hfree), h.round.trans hround.symm, ?_, ?_, ?_, ?_, ?_,
    ?_⟩
  · intro _
    rw [hlock.1, hlock.2]
    exact h.lock hstep
  · rw [hvotes]
    intro vote hmem htype
    rcases hvoted.mem_append hmem with hold | hvote
    · exact Set.mem_insert_of_mem _ (h.prevoted vote hold htype)
    · rw [hvote.round_eq hr, hvote.blockID, ← h.round]
      exact Set.mem_insert _ _
  · rw [hvotes]
    intro vote hmem htype hne
    rcases hvoted.mem_append hmem with hold | hvote
    · exact h.precommitted vote hold htype hne
    · rw [hvote.type_] at htype
      exact absurd htype (by decide)
  · rw [hround]
    exact h.precommitted_le
  · rw [hround]
    exact fun hash hp => (h.once hash hp).trans hle
  · rw [haggrs]
    exact h.seen

/-- The precommit of a validator, and a voter that has done what goes with it. -/
theorem Simulates.precommit {blockID : BlockID} {new : List Effect} {w' : Voter Bytes}
    (h : Simulates L v w) (hr : RoundInv v) (hvoted : Voted v voteTypePrecommit blockID new)
    (hround : v'.round = v.round) (hstep : v'.step = .precommitWait)
    (hvotes : v'.signedVotes = new.filterMap Effect.signedVote ++ v.signedVotes)
    (haggrs : v'.voteSignAggr = v.voteSignAggr) (hw : w'.round = w.round)
    (hpre : w'.prevoted = w.prevoted) (hseen : w'.seen = w.seen)
    (hold : w.precommitted ⊆ w'.precommitted)
    (hnow : ∀ p ∈ w'.precommitted, p ∈ w.precommitted ∨ p.1 = v.round)
    (hnew : blockID.hash ≠ [] → (v.round, blockID.hash) ∈ w'.precommitted)
    (hlock : LockIs L v'.lockedBlock v'.lockedRound w'.lock) : Simulates L v' w' := by
  have hcases : ∀ vote ∈ v'.signedVotes, vote ∈ v.signedVotes ∨
      IsVote v voteTypePrecommit blockID vote := by
    rw [hvotes]
    exact fun vote => hvoted.mem_append
  refine ⟨hw.trans (h.round.trans hround.symm), fun _ => hlock, ?_, ?_, ?_, ?_, ?_⟩
  · intro vote hmem htype
    rw [hpre]
    rcases hcases vote hmem with hmem | hvote
    · exact h.prevoted vote hmem htype
    · rw [hvote.type_] at htype
      exact absurd htype (by decide)
  · intro vote hmem htype hne
    rcases hcases vote hmem with hmem | hvote
    · exact hold (h.precommitted vote hmem htype hne)
    · rw [hvote.round_eq hr, hvote.blockID]
      exact hnew (hvote.blockID ▸ hne)
  · rw [hround]
    intro p hp
    rcases hnow p hp with hp | hp
    · exact h.precommitted_le p hp
    · exact hp.le
  · rw [hstep]
    exact fun _ _ => by decide
  · rw [haggrs, hseen]
    exact h.seen

/-- **Every move of a validator is matched by steps of the voter.** -/
theorem Move.simulates (h : Move L e v v') (hinv : LocalInv v) (hsim : Simulates L v w)
    (hpolka : ∀ s peerKey, e = .msg (.maj23SignAggr (some s)) peerKey →
      Verified L v.height v.validators s → s.type_ = voteTypePrevote →
      (s.round, s.maj23.hash) ∈ polkas) :
    ∃ w', Relation.ReflTransGen (Voter.Step polkas) w w' ∧ Simulates L v' w' := by
  -- before the precommit a lock is of an earlier round
  have hearlier : v.step.val < RoundStepType.precommit.val → v.lockedBlock.isSome = true →
      v.lockedRound < v.round := fun hstep hlocked =>
    lt_of_le_of_ne (hinv.lock.le hlocked) fun heq =>
      absurd (hinv.lock.step hlocked heq) (not_le.2 hstep)
  have hbefore : v.step.val < RoundStepType.precommit.val → v.step ≠ .commit := by
    rintro hstep heq
    rw [heq] at hstep
    exact absurd hstep (by decide)
  have hfree : v.step.val < RoundStepType.precommit.val →
      ∀ hash, (v.round, hash) ∉ w.precommitted := fun hstep hash hp =>
    absurd (hsim.once hash hp) (not_le.2 hstep)
  cases h with
  | countVote | acceptProposal | addPart | completeBlock | recordPrevotes | recordPrecommits
  | schedule | gossipAggr | sendAggr =>
    exact ⟨w, .refl, hsim.frame rfl (fun hne => ⟨hne, rfl, rfl⟩) rfl le_rfl fun _ _ hs => hs⟩
  | emit effect h =>
    exact ⟨w, .refl, hsim.frame rfl (fun hne => ⟨hne, rfl, rfl⟩)
      (List.filterMap_cons_none (Effect.benign_signs h).1) le_rfl fun _ _ hs => hs⟩
  | startRound aggrs votes he hstep haggrs =>
    obtain ⟨_, haggrs⟩ := haggrs
    have hle : v.step.val ≤ RoundStepType.newRound.val := by rw [hstep]; decide
    exact ⟨w, .refl, hsim.frame rfl (fun _ => ⟨by rw [hstep]; simp, rfl, rfl⟩) rfl hle
      fun r s hs => (HeightVoteSignAggr.setRound_lookup haggrs).1 ▸ hs⟩
  | enterRound round aggrs votes he hround hint hstep haggrs =>
    obtain ⟨_, haggrs⟩ := haggrs
    have hne : v.step ≠ .commit := by
      rintro heq
      rw [heq] at hstep
      exact absurd hstep (by decide)
    refine ⟨_, .single (.advance w round (hsim.round.le.trans hround.le)), rfl,
      fun _ => hsim.lock hne, hsim.prevoted, hsim.precommitted,
      fun p hp => (hsim.precommitted_le p hp).trans hround.le,
      fun hash hp => absurd (hsim.precommitted_le _ hp) (not_le.2 hround),
      fun r s hs => hsim.seen r s ((HeightVoteSignAggr.setRound_lookup haggrs).1 ▸ hs)⟩
  | propose new hstep h =>
    exact ⟨w, .refl, hsim.frame rfl
      (fun _ => ⟨hbefore (hstep.trans (by decide)), rfl, rfl⟩)
      (by simp [View.signedVotes, h.signs.2]) hstep.le fun _ _ hs => hs⟩
  | prevoteWait hstep =>
    exact ⟨w, .refl, hsim.frame rfl
      (fun _ => ⟨hbefore (hstep.trans (by decide)), rfl, rfl⟩) rfl hstep.le fun _ _ hs => hs⟩
  | commit commitRound block parts hstep =>
    exact ⟨w, .refl, hsim.frame rfl (fun hne => absurd rfl hne) rfl hstep.le fun _ _ hs => hs⟩
  | finalize s block proposalBlock lockedBlock new he hstep hcommit hblock hlock hnew =>
    refine ⟨w, .refl, hsim.frame rfl (fun hne => absurd hstep hne) ?_ le_rfl fun _ _ hs => hs⟩
    rw [View.signedVotes, List.filterMap_append, (filterMap_benign hnew).1]
    rfl
  | prevote blockID new hstep hproposal hblock hvoted hlock =>
    exact hsim.prevote hinv.round (hbefore (hstep.trans_lt (by decide))) hvoted hlock rfl ⟨rfl, rfl⟩
      List.filterMap_append (hstep.trans (show _ ≤ RoundStepType.prevoteWait.val by decide)) rfl
  | completeAndPrevote parts parts' block blockID new timeouts hparts hcount htotal hfull hproposal
      hstep hvoted hlock htimeouts =>
    have hquiet : timeouts.filterMap Effect.signedVote = [] :=
      List.filterMap_eq_nil_iff.2 fun t ht => by rw [htimeouts t ht]; rfl
    exact hsim.prevote hinv.round (hbefore (hstep.trans_lt (by decide))) hvoted hlock rfl ⟨rfl, rfl⟩
      (by simp [View.signedVotes, hquiet]) hstep rfl
  | storeAggr s peerKey he hs =>
    by_cases htype : s.type_ = voteTypePrevote
    · refine ⟨_, .single (.see w (s.round, s.maj23.hash) (hpolka s peerKey he hs htype)),
        hsim.round, hsim.lock, hsim.prevoted, hsim.precommitted, hsim.precommitted_le, hsim.once,
        fun r t ht => ?_⟩
      rcases HeightVoteSignAggr.addSignAggr_prevotes ht with hold | ⟨rfl, rfl, -⟩
      · exact Set.mem_insert_of_mem _ (hsim.seen r t hold)
      · exact Set.mem_insert _ _
    · refine ⟨w, .refl, hsim.frame rfl (fun hne => ⟨hne, rfl, rfl⟩) rfl le_rfl fun r t ht => ?_⟩
      rcases HeightVoteSignAggr.addSignAggr_prevotes ht with hold | ⟨rfl, -, htype'⟩
      · exact hold
      · exact absurd htype' htype
  | unlockByPrevotes s peerKey he hs hround htype hlocked hother =>
    have hsee := hsim.see (s.round, s.maj23.hash)
    have hstep := Voter.Step.see w (s.round, s.maj23.hash) (hpolka s peerKey he hs htype)
    by_cases hcommit : v.step = .commit
    · exact ⟨w, .refl, hsim.frame rfl (fun hne => absurd hcommit hne) rfl le_rfl fun _ _ hs => hs⟩
    · refine ⟨_, .head hstep (hsee.unlock (p := (s.round, s.maj23.hash)) hcommit
        (Set.mem_insert _ _) (fun _ => hlocked) hother), ?_⟩
      exact ⟨hsim.round, fun _ => rfl, hsim.prevoted, hsim.precommitted, hsim.precommitted_le,
        hsim.once, hsee.seen⟩
  | precommitNil new hstep hvoted =>
    exact ⟨w, .refl, hsim.precommit hinv.round hvoted rfl rfl List.filterMap_append rfl rfl rfl rfl
      subset_rfl (fun _ hp => .inl hp) (fun hne => absurd rfl hne) (hsim.lock (hbefore hstep))⟩
  | precommitUnlock s block parts new hstep hpol hother hvoted =>
    exact ⟨_, hsim.unlock (p := (v.round, s.maj23.hash)) (hbefore hstep) (hsim.seen _ _ hpol.1)
        (hearlier hstep) hother,
      hsim.precommit hinv.round hvoted rfl rfl List.filterMap_append rfl rfl rfl rfl subset_rfl
        (fun _ hp => .inl hp) (fun hne => absurd rfl hne) rfl⟩
  | precommitRelock s new hstep hpol hsame hvoted =>
    obtain ⟨hne, hsome, hhash⟩ := NCBlock.hashesTo_eq_true hsame
    have hlock := (hsim.lock (hbefore hstep)).of_hashesTo hsame
    refine ⟨_, .single (.precommit w s.maj23.hash ?_ ?_ ?_),
      hsim.precommit hinv.round hvoted rfl rfl List.filterMap_append rfl rfl rfl rfl
        (Set.subset_insert _ _) ?_ (fun _ => ?_) ?_⟩
    · rw [hsim.round]
      exact hsim.seen _ _ hpol.1
    · intro y k hy
      exact (Prod.mk.inj (Option.some.inj (hlock.symm.trans hy))).1
    · rw [hsim.round]
      exact hfree hstep
    · rintro p (rfl | hp)
      · exact .inr hsim.round
      · exact .inl hp
    · rw [← hsim.round]
      exact Set.mem_insert _ _
    · obtain ⟨b, hb⟩ := Option.isSome_iff_exists.1 hsome
      rw [hb] at hhash
      simp only [hb, LockIs]
      exact ⟨s.maj23.hash, hhash, hne, by rw [hsim.round]⟩
  | precommitLock s block new hstep hpol hother hblock hsame hvoted =>
    obtain ⟨hne, -, hhash⟩ := NCBlock.hashesTo_eq_true hsame
    have hunlock := @Simulates.unlock _ _ _ polkas (v.round, s.maj23.hash) hsim (hbefore hstep)
      (hsim.seen _ _ hpol.1) (hearlier hstep) hother
    refine ⟨_, hunlock.tail (.precommit _ s.maj23.hash ?_ ?_ ?_),
      hsim.precommit hinv.round hvoted rfl rfl List.filterMap_append rfl rfl rfl rfl
        (Set.subset_insert _ _) ?_ (fun _ => ?_) ⟨s.maj23.hash, hhash, hne, ?_⟩⟩
    · exact hsim.round ▸ hsim.seen _ _ hpol.1
    · exact fun y k hy => by simp at hy
    · exact hsim.round ▸ hfree hstep
    · rintro p (rfl | hp)
      · exact .inr hsim.round
      · exact .inl hp
    · exact hsim.round ▸ Set.mem_insert _ _
    · exact congrArg (fun r => some (s.maj23.hash, r)) hsim.round

/-- **A handler is matched by steps of the voter.** -/
theorem Moves.simulates (h : Moves L e v v') (hinv : LocalInv v) (hsim : Simulates L v w)
    (hpolka : ∀ s peerKey, e = .msg (.maj23SignAggr (some s)) peerKey →
      Verified L v.height v.validators s → s.type_ = voteTypePrevote →
      (s.round, s.maj23.hash) ∈ polkas) :
    ∃ w', Relation.ReflTransGen (Voter.Step polkas) w w' ∧ Simulates L v' w' := by
  suffices hend : (LocalInv v' ∧ v'.height = v.height ∧ v'.validators = v.validators) ∧
      ∃ w', Relation.ReflTransGen (Voter.Step polkas) w w' ∧ Simulates L v' w' from hend.2
  induction h with
  | refl => exact ⟨⟨hinv, rfl, rfl⟩, w, .refl, hsim⟩
  | tail _ hmove ih =>
    obtain ⟨⟨hlocal, hheight, hvalidators⟩, w₁, hsteps, hsim₁⟩ := ih
    obtain ⟨hheight', hvalidators', -⟩ := hmove.fixed
    rw [← hheight, ← hvalidators] at hpolka
    obtain ⟨w₂, hmore, hsim₂⟩ := hmove.simulates hlocal hsim₁ hpolka
    exact ⟨⟨hmove.localInv hlocal, hheight'.trans hheight, hvalidators'.trans hvalidators⟩,
      w₂, hsteps.trans hmore, hsim₂⟩

theorem ConsensusState.startNewHeight_simulates {env : Env} {cs : ConsensusState}
    {extra : TendermintExtra} {validators : ValidatorSet} {pv : Option PrivValidator}
    {block : Option LigoBlock} (h : startNewHeight env extra validators pv block = .ok cs) :
    Simulates L cs.view (Voter.init Bytes 0) := by
  obtain ⟨votes, -, h⟩ := Steps.bind_eq_ok.1 h
  cases h
  refine ⟨rfl, fun _ => rfl, ?_, ?_, ?_, ?_, ?_⟩ <;>
    simp [view, View.signedVotes, Effect.signedVote, Voter.init]

end Consensus
end LigoChain
