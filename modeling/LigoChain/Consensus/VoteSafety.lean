/-
# Votes that make the proposer panic

A vote passes the round filter of `addVote` (`consensus/state.go`), the height set's
`AddVote` with its catch-up rounds (`height_vote_set.go`) and the vote set's
(`types/vote_set.go`) before its signature is checked.  On the way `VoteSet.addVote`
panics on an empty address, and `GetByIndex` indexes the validators with the vote's own
index.

`addVote_returns_iff` says which votes the proposer survives: those that are turned away
before, and those with an address and the index of a validator.  Behind it stands
`Fits`: the arrays of every vote set have the length of the validator set, in every
reachable state and whatever the inputs were.
-/

import LigoChain.Consensus.RoundBookkeeping

namespace LigoChain

open GoInt Steps

/-! ## One vote set -/

namespace ValidatorSet

variable {valSet : ValidatorSet} {index : ℕ}

/-- `GetByIndex` finds the validator of an index within the set. -/
theorem getByIndex_eq_ok (hsize : (valSet.size : ℤ) ≤ maxInt) (h : index < valSet.size) :
    ∃ val, valSet.validators[index]? = some val ∧
      valSet.getByIndex (ofUint64 index) = .ok (val.address, val) := by
  have hget : valSet.validators[index]? = some (valSet.validators.get ⟨index, h⟩) :=
    List.getElem?_eq_getElem h
  refine ⟨_, hget, ?_⟩
  rw [ofUint64_of_le (by omega), getByIndex, if_neg (by omega), Int.toNat_natCast, hget]

theorem meets_getByIndex {E : GoPanic → Prop} {i : ℤ} (hi : ofUint64 index = i)
    (hsize : (valSet.size : ℤ) ≤ maxInt) (hE : valSet.size ≤ index → ∀ p, E p) :
    Meets E (fun _ => True) (valSet.getByIndex i) := by
  rcases lt_or_ge index valSet.size with hlt | hle
  · obtain ⟨val, -, hval⟩ := getByIndex_eq_ok hsize hlt
    rw [← hi, hval]
    trivial
  · exact meets_of_forall (hE hle) _

/-- `GetByIndex` panics on the index of no validator. -/
theorem getByIndex_eq_error (hindex : index < 2 ^ 64) (h : valSet.size ≤ index) :
    valSet.getByIndex (ofUint64 index) = .error .index := by
  unfold getByIndex
  split
  · rfl
  next hnonneg =>
  have hle : (index : ℤ) ≤ maxInt := not_lt.1 fun hlt => hnonneg (ofUint64_of_lt hlt hindex)
  rw [ofUint64_of_le hle, Int.toNat_natCast, List.getElem?_eq_none h]

end ValidatorSet

namespace VoteSet

variable {L : Libs} {voteSet voteSet' : VoteSet} {vote : Vote}

/-- The arrays of a vote set have the length of the validator set. -/
structure Sized (voteSet : VoteSet) : Prop where
  votes : voteSet.votes.length = voteSet.valSet.size
  byBlock : ∀ key bv, voteSet.votesByBlock.lookup key = some bv →
    bv.bitArray.length = voteSet.valSet.size ∧ bv.votes.length = voteSet.valSet.size

theorem newVoteSet_sized {chainID : String} {height : ℕ} {round : ℤ} {type_ : ℕ}
    {valSet : ValidatorSet} (h : newVoteSet chainID height round type_ valSet = .ok voteSet) :
    voteSet.Sized := by
  unfold newVoteSet at h
  split at h
  · simp at h
  · cases h
    exact ⟨by simp, by simp⟩

/-- The validator has voted for the block before. -/
def Repeats (voteSet : VoteSet) (vote : Vote) : Prop :=
  ∃ existing, voteSet.votes[vote.validatorIndex]? = some (some existing) ∧
    existing.blockID = vote.blockID

variable {E : GoPanic → Prop} (hE : voteSet.valSet.size ≤ vote.validatorIndex → ∀ p, E p)

include hE

theorem placeVote_sized (hs : voteSet.Sized) (hrepeats : voteSet.Repeats vote → ∀ p, E p)
    {key : Bytes} {power : ℤ} :
    Meets E (fun r => r.1.Sized ∧ SameHeader voteSet r.1) (voteSet.placeVote vote key power) := by
  unfold placeVote
  split
  next hnone =>
    rw [List.getElem?_eq_none_iff, hs.votes] at hnone
    exact hE hnone _
  next existing hexisting =>
    split
    next hsame => exact hrepeats ⟨existing, hexisting, hsame⟩ _
    split
    · exact ⟨⟨by simpa using hs.votes, hs.byBlock⟩, rfl, rfl, rfl, rfl, rfl⟩
    · exact ⟨hs, .refl _⟩
  · exact ⟨⟨by simpa using hs.votes, hs.byBlock⟩, rfl, rfl, rfl, rfl, rfl⟩

omit hE in
/-- An entry of `votesByBlock` with arrays of the right length. -/
theorem Sized.insert (hs : voteSet.Sized) {key : Bytes} {bv : BlockVotes}
    (hbits : bv.bitArray.length = voteSet.valSet.size)
    (hvotes : bv.votes.length = voteSet.valSet.size) :
    Sized { voteSet with votesByBlock := voteSet.votesByBlock.insert key bv } := by
  refine ⟨hs.votes, fun k bv' hk => ?_⟩
  rw [GoMap.lookup_insert_ite] at hk
  split at hk
  · cases hk
    exact ⟨hbits, hvotes⟩
  · exact hs.byBlock k bv' hk

theorem countVote_sized (hs : voteSet.Sized) {key : Bytes} {power : ℤ} {bv : BlockVotes}
    (hbits : bv.bitArray.length = voteSet.valSet.size)
    (hvotes : bv.votes.length = voteSet.valSet.size) :
    Meets E (fun r => (r.1.Sized ∧ SameHeader voteSet r.1) ∧
        (vote.validatorIndex < voteSet.valSet.size → r.2 = true))
      (voteSet.countVote vote key power bv) := by
  unfold countVote
  split
  next err herr =>
    refine ⟨⟨hs.insert hbits hvotes, rfl, rfl, rfl, rfl, rfl⟩, fun hlt => ?_⟩
    -- a set of validators with as many bits is tallied
    have hne : voteSet.valSet.validators.isEmpty = false := by
      rw [List.isEmpty_eq_false_iff, ← List.length_pos_iff]
      exact Nat.zero_lt_of_lt hlt
    simp [ValidatorSet.talliedVotingPower, hne, hbits] at herr
  · have hadd : Meets E (fun bv' => bv'.bitArray.length = voteSet.valSet.size ∧
          bv'.votes.length = voteSet.valSet.size) (bv.addVerifiedVote vote power) := by
      unfold BlockVotes.addVerifiedVote
      split
      next hnone =>
        rw [List.getElem?_eq_none_iff, hvotes] at hnone
        exact hE hnone _
      · exact ⟨hbits, hvotes⟩
      · exact ⟨by simpa using hbits, by simpa using hvotes⟩
    dsimp only
    refine hadd.bind fun bv' _ hbv' => ?_
    obtain ⟨hbits', hvotes'⟩ := hbv'
    have hinsert := @Sized.insert _ hs key bv' hbits' hvotes'
    split
    · refine ⟨⟨⟨?_, hinsert.byBlock⟩, rfl, rfl, rfl, rfl, rfl⟩, fun _ => rfl⟩
      simp [copyVotes, hs.votes, hvotes']
    · exact ⟨⟨hinsert, rfl, rfl, rfl, rfl, rfl⟩, fun _ => rfl⟩

theorem addVerifiedVote_sized (hs : voteSet.Sized) (hrepeats : voteSet.Repeats vote → ∀ p, E p)
    {key : Bytes} {power : ℤ} :
    Meets E (fun r => (r.1.Sized ∧ SameHeader voteSet r.1) ∧
        (vote.validatorIndex < voteSet.valSet.size → r.2.2 = none → r.2.1 = true))
      (voteSet.addVerifiedVote vote key power) := by
  unfold addVerifiedVote
  refine (placeVote_sized hE hs hrepeats).bind ?_
  rintro ⟨placed, conflicting⟩ - ⟨hplaced, hsame⟩
  dsimp only
  rw [← hsame.valSet] at hE ⊢
  have hcount : ∀ bv : BlockVotes, bv.bitArray.length = placed.valSet.size →
      bv.votes.length = placed.valSet.size →
      Meets E (fun r => (r.1.Sized ∧ SameHeader voteSet r.1) ∧
          (vote.validatorIndex < placed.valSet.size → r.2.2 = none → r.2.1 = true))
        (placed.countVote vote key power bv >>= fun r => .ok (r.1, r.2, conflicting)) :=
    fun bv hbits hvotes => (countVote_sized hE hplaced hbits hvotes).bind fun r _ hr =>
      ⟨⟨hr.1.1, hsame.trans hr.1.2⟩, fun hlt _ => hr.2 hlt⟩
  split
  next bv hbv =>
    split
    next hconf =>
      refine ⟨⟨hplaced, hsame⟩, fun _ hnone => ?_⟩
      simp [show conflicting = none from hnone] at hconf
    · exact hcount bv (hplaced.byBlock _ _ hbv).1 (hplaced.byBlock _ _ hbv).2
  · split
    next hconf =>
      refine ⟨⟨hplaced, hsame⟩, fun _ hnone => ?_⟩
      simp [show conflicting = none from hnone] at hconf
    · exact hcount _ (by simp [newBlockVotes]) (by simp [newBlockVotes])

/-- `getVote` finds the entry of a validator of the set, and does not miss its vote for the
block. -/
theorem meets_getVote {i : ℤ} (hi : ofUint64 vote.validatorIndex = i) (hs : voteSet.Sized)
    (hsize : (voteSet.valSet.size : ℤ) ≤ maxInt) :
    Meets E (fun r => vote.validatorIndex < voteSet.valSet.size → r = none → ¬ voteSet.Repeats vote)
      (voteSet.getVote i vote.blockID.key) := by
  rcases lt_or_ge vote.validatorIndex voteSet.valSet.size with hlt | hle
  swap
  · exact (meets_of_forall (hE hle) _).mono fun _ _ _ hlt => absurd hle (not_le.2 hlt)
  obtain rfl : i = (vote.validatorIndex : ℤ) := hi.symm.trans (ofUint64_of_le (by omega))
  unfold getVote Repeats
  rw [if_neg (by omega), Int.toNat_natCast]
  have hget : ∃ existing, voteSet.votes[vote.validatorIndex]? = some existing :=
    ⟨_, List.getElem?_eq_getElem (by rw [hs.votes]; exact hlt)⟩
  obtain ⟨existing, hexisting⟩ := hget
  rw [hexisting]
  dsimp only
  split
  · exact fun _ hnone => by cases hnone
  next hother =>
  have hnot : ¬ ∃ e, some existing = some (some e) ∧ e.blockID = vote.blockID := by
    rintro ⟨e, he, hsame⟩
    cases he
    simp [Option.filter, hsame] at hother
  split
  · exact fun _ _ => hnot
  next bv hbv =>
  split
  next hshort =>
    rw [List.getElem?_eq_none_iff, (hs.byBlock _ _ hbv).2] at hshort
    omega
  · exact fun _ _ => hnot

omit hE

/-- The vote is of the height, round and type of the set. -/
def Matches (voteSet : VoteSet) (vote : Vote) : Prop :=
  vote.height = voteSet.height ∧ ofUint64 vote.round = voteSet.round ∧ vote.type_ = voteSet.type_

/-- **What makes `AddVote` panic**: no address, or the index of no validator.  Without it the
arrays keep their length. -/
theorem addVote_sized (hs : voteSet.Sized) (hsize : (voteSet.valSet.size : ℤ) ≤ maxInt)
    (hE : vote.validatorAddress = [] ∨
      voteSet.Matches vote ∧ voteSet.valSet.size ≤ vote.validatorIndex → ∀ p, E p) :
    Meets E (fun r => r.1.Sized ∧ SameHeader voteSet r.1) (voteSet.addVote L vote) := by
  have hunchanged : voteSet.Sized ∧ SameHeader voteSet voteSet := ⟨hs, .refl _⟩
  unfold addVote
  refine meets_ite (fun hempty => hE (.inl (by simpa using hempty)) _) fun _ =>
    meets_ite (fun _ => hunchanged) fun hstep => ?_
  push Not at hstep
  -- with the index of a validator nothing below panics, with another anything may
  have hpanic : voteSet.valSet.size ≤ vote.validatorIndex → ∀ p, E p :=
    fun hle => hE (.inr ⟨hstep, hle⟩)
  generalize hi : ofUint64 vote.validatorIndex = i
  refine (ValidatorSet.meets_getByIndex hi hsize hpanic).bind ?_
  rintro ⟨addr, val⟩ - -
  dsimp only
  refine meets_ite (fun _ => hunchanged) fun _ => ?_
  refine (meets_getVote hpanic hi hs hsize).bind fun existing _ hexisting => ?_
  split
  · split <;> exact hunchanged
  refine meets_ite (fun _ => hunchanged) fun _ => ?_
  refine (addVerifiedVote_sized hpanic hs fun hrepeats =>
    hpanic (not_lt.1 fun hlt => hexisting hlt rfl hrepeats)).bind ?_
  rintro ⟨voteSet', added, conflicting⟩ - ⟨hsized, hadded⟩
  dsimp only
  split
  · exact hsized
  split
  next hnot =>
    refine hpanic (not_lt.1 fun hlt => ?_) _
    simp [show added = true from hadded hlt rfl] at hnot
  · exact hsized

/-- A vote without an address, or with the index of no validator, makes `AddVote` panic. -/
theorem addVote_eq_error (hindex : vote.validatorIndex < 2 ^ 64)
    (h : vote.validatorAddress = [] ∨
      voteSet.Matches vote ∧ voteSet.valSet.size ≤ vote.validatorIndex) :
    ∃ p, voteSet.addVote L vote = .error p := by
  unfold addVote
  split
  · exact ⟨_, rfl⟩
  next hne =>
  obtain ⟨⟨h1, h2, h3⟩, hle⟩ := h.resolve_left fun hempty => hne (by simp [hempty])
  rw [if_neg (by simp [h1, h2, h3]), ValidatorSet.getByIndex_eq_error hindex hle]
  exact ⟨_, rfl⟩

/-- A vote that its validator has not signed leaves the set as it is. -/
theorem addVote_of_not_verified {added : Bool} {err : Option VoteError}
    (hsize : (voteSet.valSet.size : ℤ) ≤ maxInt) (hindex : vote.validatorIndex < 2 ^ 64)
    (hforged : ∀ val, voteSet.valSet.validators[vote.validatorIndex]? = some val →
      L.verifyBytes val.pubKey (L.signBytes voteSet.chainID (canonicalVote vote))
        vote.signature = false)
    (h : voteSet.addVote L vote = .ok (voteSet', added, err)) :
    voteSet' = voteSet ∧ added = false := by
  rcases addVote_eq_ok h with hsame | ⟨addr, val, conflicting, -, hget, -, hverify, -⟩
  · exact hsame
  rcases lt_or_ge vote.validatorIndex voteSet.valSet.size with hlt | hle
  · obtain ⟨val', hval, hget'⟩ := ValidatorSet.getByIndex_eq_ok hsize hlt
    cases hget'.symm.trans hget
    rw [hforged val hval] at hverify
    cases hverify
  · rw [ValidatorSet.getByIndex_eq_error hindex hle] at hget
    cases hget

end VoteSet

namespace Consensus

/-! ## The vote sets of a height -/

namespace HeightVoteSet

variable {L : Libs} {hvs hvs' : HeightVoteSet} {round : ℤ} {vote : Vote} {peerKey : String}
  {voteSet : VoteSet}

/-- A vote set of the height, with arrays of the right length. -/
structure SetFits (hvs : HeightVoteSet) (round : ℤ) (type_ : ℕ) (voteSet : VoteSet) : Prop where
  chainID : voteSet.chainID = hvs.chainID
  height : voteSet.height = hvs.height
  round : voteSet.round = round
  type_ : voteSet.type_ = type_
  valSet : voteSet.valSet = hvs.valSet
  sized : voteSet.Sized

/-- Every vote set of the height fits its place. -/
structure Fits (hvs : HeightVoteSet) : Prop where
  height : hvs.height ≠ 0
  sets : ∀ round rvs, hvs.roundVoteSets.lookup round = some rvs →
    hvs.SetFits round voteTypePrevote rvs.prevotes ∧
    hvs.SetFits round voteTypePrecommit rvs.precommits

theorem setFits_newVoteSet : hvs.EachNew hvs.SetFits := by
  intro round type_ voteSet h
  have hsized := VoteSet.newVoteSet_sized h
  unfold newVoteSet at h
  split_ifs at h
  cases h
  exact ⟨rfl, rfl, rfl, rfl, rfl, hsized⟩

theorem Fits.of_each (hheight : hvs.height ≠ 0) (h : hvs'.Each hvs.SetFits ∧ hvs.Alike hvs') :
    hvs'.Fits ∧ hvs.Alike hvs' := by
  obtain ⟨hsets, halike⟩ := h
  exact ⟨⟨halike.2.1.trans_ne hheight, hsets.mono fun hset => ⟨hset.chainID.trans halike.1.symm,
    hset.height.trans halike.2.1.symm, hset.round, hset.type_, hset.valSet.trans halike.2.2.symm,
    hset.sized⟩⟩, halike⟩

theorem new_fits {chainID : String} {height : ℕ} {valSet : ValidatorSet}
    (h : new chainID height valSet = .ok hvs') :
    hvs'.Fits ∧ hvs'.chainID = chainID ∧ hvs'.height = height ∧ hvs'.valSet = valSet := by
  exact Fits.of_each (new_eq_ok h).1
    (Each.addRound (fun r rvs hr => by simp at hr) setFits_newVoteSet h)

theorem Fits.setRound (hfits : hvs.Fits) (h : hvs.setRound round = .ok hvs') :
    hvs'.Fits ∧ hvs.Alike hvs' :=
  Fits.of_each hfits.height (Each.setRound hfits.sets setFits_newVoteSet h)

theorem Fits.resetTop2Round (hfits : hvs.Fits) (h : hvs.resetTop2Round round = .ok hvs') :
    hvs'.Fits ∧ hvs.Alike hvs' :=
  Fits.of_each hfits.height (Each.resetTop2Round hfits.sets setFits_newVoteSet h)

/-- **The catch-up does not panic**: the round is open, or it is opened empty. -/
theorem Fits.catchup (hfits : hvs.Fits) (peerKey : String) :
    ∃ r, hvs.catchup round peerKey = .ok r ∧ ∀ opened, r = some opened →
      (opened.Fits ∧ hvs.Alike opened) ∧ ∃ rvs, opened.roundVoteSets.lookup round = some rvs ∧
        (hvs.roundVoteSets.lookup round = some rvs ∧ opened = hvs ∨
          hvs.roundVoteSets.lookup round = none ∧ hvs.Blank round rvs ∧
          ∀ r, opened.roundVoteSets.lookup r =
            if r = round then some rvs else hvs.roundVoteSets.lookup r) := by
  cases hopen : hvs.roundVoteSets.lookup round with
  | some rvs =>
    refine ⟨_, catchup_of_open hopen, fun opened hopened => ?_⟩
    cases hopened
    exact ⟨⟨hfits, rfl, rfl, rfl⟩, rvs, hopen, .inl ⟨rfl, rfl⟩⟩
  | none =>
    obtain ⟨hvs₁, -, hadd, -⟩ := addRound_opens hvs round hfits.height hopen
    obtain ⟨rvs, hblank, rfl⟩ := addRound_blank hadd
    have hreturns : ∃ r, hvs.catchup round peerKey = .ok r := by
      unfold HeightVoteSet.catchup
      simp only [hopen, hadd, Option.isSome_none, Bool.false_eq_true, if_false, bind, Except.bind]
      split <;> exact ⟨_, rfl⟩
    obtain ⟨r, hr⟩ := hreturns
    refine ⟨r, hr, fun opened hopened => ?_⟩
    rw [hopened] at hr
    refine ⟨Fits.of_each hfits.height (Each.catchup hfits.sets setFits_newVoteSet hr), rvs, ?_⟩
    rcases catchup_cases hr with ⟨hsome, -⟩ | ⟨-, added, hadd', rfl⟩
    · simp [hopen] at hsome
    · cases hadd.symm.trans hadd'
      exact ⟨AList.lookup_insert _, .inr ⟨rfl, hblank, fun r => GoMap.lookup_insert_ite _ _ _ _⟩⟩

/-- `AddVote` hands the vote to a vote set: its type is valid, and the round is open or can be
opened by the peer. -/
def Reaches (hvs : HeightVoteSet) (vote : Vote) (peerKey : String) : Prop :=
  isVoteTypeValid vote.type_ = true ∧ hvs.catchup (ofUint64 vote.round) peerKey ≠ .ok none

/-- The vote is for this height, and has no address or the index of no validator. -/
def Crashes (hvs : HeightVoteSet) (vote : Vote) : Prop :=
  vote.validatorAddress = [] ∨ vote.height = hvs.height ∧ hvs.valSet.size ≤ vote.validatorIndex

theorem SetFits.matches_iff (h : hvs.SetFits (ofUint64 vote.round) vote.type_ voteSet) :
    (vote.validatorAddress = [] ∨
      voteSet.Matches vote ∧ voteSet.valSet.size ≤ vote.validatorIndex) ↔ hvs.Crashes vote := by
  unfold Crashes VoteSet.Matches
  rw [h.height, h.round, h.type_, h.valSet]
  simp

theorem Alike.crashes (h : hvs.Alike hvs') :
    hvs'.Crashes vote ↔ hvs.Crashes vote := by
  unfold Crashes
  rw [h.2.1, h.2.2]

/-- A vote goes to the vote set of its type. -/
theorem SetFits.addVote (h : hvs.SetFits (ofUint64 vote.round) vote.type_ voteSet)
    (hsize : (hvs.valSet.size : ℤ) ≤ maxInt) {E : GoPanic → Prop}
    (hE : hvs.Crashes vote → ∀ p, E p) :
    Meets E (fun r => hvs.SetFits (ofUint64 vote.round) vote.type_ r.1)
      (voteSet.addVote L vote) := by
  refine (VoteSet.addVote_sized h.sized (by rw [h.valSet]; exact hsize) fun hcrash =>
    hE (h.matches_iff.1 hcrash)).mono fun r _ hr => ?_
  obtain ⟨hsized, hsame⟩ := hr
  exact ⟨hsame.chainID.trans h.chainID, hsame.height.trans h.height, hsame.round.trans h.round,
    hsame.type_.trans h.type_, hsame.valSet.trans h.valSet, hsized⟩

/-- No tally differs: the vote sets are the same, but for empty ones of a round that was
opened. -/
def SameTally (hvs hvs' : HeightVoteSet) : Prop :=
  ∀ r, hvs'.roundVoteSets.lookup r = hvs.roundVoteSets.lookup r ∨
    hvs.roundVoteSets.lookup r = none ∧
      ∃ rvs, hvs'.roundVoteSets.lookup r = some rvs ∧ hvs.Blank r rvs

/-- **Where a vote goes**: it is turned away, or added to a vote set of its round and type. -/
theorem Fits.addVote_cases (hfits : hvs.Fits) (L : Libs) (vote : Vote) (peerKey : String) :
    (¬ hvs.Reaches vote peerKey ∧ ∃ err, hvs.addVote L vote peerKey = .ok (hvs, false, err)) ∨
    hvs.Reaches vote peerKey ∧ ∃ opened rvs, (opened.Fits ∧ hvs.Alike opened) ∧
      hvs.SameTally opened ∧ opened.roundVoteSets.lookup (ofUint64 vote.round) = some rvs ∧
      hvs.addVote L vote peerKey = (rvs.ofType vote.type_).addVote L vote >>= fun r =>
        .ok ({ opened with
          roundVoteSets := opened.roundVoteSets.insert (ofUint64 vote.round)
            (rvs.replace vote.type_ r.1) }, r.2.1, r.2.2.map .vote) := by
  by_cases htype : isVoteTypeValid vote.type_ = true
  swap
  · rw [HeightVoteSet.addVote, if_pos (by simpa using htype)]
    exact .inl ⟨fun hreach => htype hreach.1, none, rfl⟩
  obtain ⟨r, hcatch, hr⟩ := @Fits.catchup _ (ofUint64 vote.round) hfits peerKey
  cases r with
  | none =>
    rw [HeightVoteSet.addVote, if_neg (by simp [htype])]
    simp only [hcatch, bind, Except.bind]
    exact .inl ⟨fun hreach => hreach.2 hcatch, _, rfl⟩
  | some opened =>
    obtain ⟨hopened, rvs, hrvs, hsets⟩ := hr opened rfl
    refine .inr ⟨⟨htype, by rw [hcatch]; simp⟩, opened, rvs, hopened, fun q => ?_, hrvs,
      addVote_eq htype hcatch hrvs⟩
    rcases hsets with ⟨-, rfl⟩ | ⟨hnone, hblank, hlookup⟩
    · exact .inl rfl
    rw [hlookup]
    split
    next heq => exact .inr ⟨heq ▸ hnone, rvs, rfl, heq ▸ hblank⟩
    · exact .inl rfl

/-- **What makes the height set's `AddVote` panic.** -/
theorem Fits.addVote (hfits : hvs.Fits) (hsize : (hvs.valSet.size : ℤ) ≤ maxInt) :
    Meets (fun _ : GoPanic => hvs.Reaches vote peerKey ∧ hvs.Crashes vote)
      (fun r => r.1.Fits ∧ hvs.Alike r.1) (hvs.addVote L vote peerKey) := by
  rcases hfits.addVote_cases L vote peerKey with
    ⟨-, err, heq⟩ | ⟨hreach, opened, rvs, ⟨hopened, halike⟩, -, hrvs, heq⟩ <;> rw [heq]
  · exact ⟨hfits, rfl, rfl, rfl⟩
  have hset := Each.ofType hopened.sets hrvs hreach.1
  refine (hset.addVote (by rw [halike.2.2]; exact hsize) fun hcrash _ =>
    ⟨hreach, halike.crashes.1 hcrash⟩).bind fun r _ hr => ?_
  exact (of_each hopened.height ⟨Each.replace hopened.sets hrvs hreach.1 hr, rfl, rfl, rfl⟩).imp_right
    halike.trans

/-- A vote that reaches a vote set and has no address, or the index of no validator, makes
`AddVote` panic. -/
theorem Fits.addVote_eq_error (hfits : hvs.Fits) (hindex : vote.validatorIndex < 2 ^ 64)
    (hreach : hvs.Reaches vote peerKey) (hcrash : hvs.Crashes vote) :
    ∃ p, hvs.addVote L vote peerKey = .error p := by
  rcases hfits.addVote_cases L vote peerKey with
    ⟨hno, -⟩ | ⟨-, opened, rvs, ⟨hopened, halike⟩, -, hrvs, heq⟩
  · exact absurd hreach hno
  have hset := Each.ofType hopened.sets hrvs hreach.1
  obtain ⟨p, hp⟩ := VoteSet.addVote_eq_error (L := L) hindex
    (hset.matches_iff.2 (halike.crashes.2 hcrash))
  exact ⟨p, by rw [heq, hp]; rfl⟩

/-- **A vote that its validator has not signed changes no tally.** -/
theorem Fits.addVote_of_not_verified (hfits : hvs.Fits) (hsize : (hvs.valSet.size : ℤ) ≤ maxInt)
    {added : Bool} {err : Option AddVoteError} (hindex : vote.validatorIndex < 2 ^ 64)
    (hforged : ∀ val, hvs.valSet.validators[vote.validatorIndex]? = some val →
      L.verifyBytes val.pubKey (L.signBytes hvs.chainID (canonicalVote vote))
        vote.signature = false)
    (h : hvs.addVote L vote peerKey = .ok (hvs', added, err)) :
    hvs.SameTally hvs' ∧ added = false := by
  rcases hfits.addVote_cases L vote peerKey with
    ⟨-, err, heq⟩ | ⟨hreach, opened, rvs, ⟨hopened, halike⟩, htally, hrvs, heq⟩ <;> rw [heq] at h
  · cases h
    exact ⟨fun _ => .inl rfl, rfl⟩
  obtain ⟨⟨voteSet', added', err'⟩, hadd, h⟩ := Steps.bind_eq_ok.1 h
  cases h
  have hset := Each.ofType hopened.sets hrvs hreach.1
  obtain ⟨rfl, rfl⟩ := VoteSet.addVote_of_not_verified
    (by rw [hset.valSet, halike.2.2]; exact hsize) hindex
    (by rw [hset.valSet, halike.2.2, hset.chainID, halike.1]; exact hforged) hadd
  have hsame : rvs.replace vote.type_ (rvs.ofType vote.type_) = rvs := by
    unfold RoundVoteSet.replace RoundVoteSet.ofType
    split_ifs <;> rfl
  refine ⟨fun q => ?_, rfl⟩
  dsimp only
  rw [hsame, GoMap.lookup_insert_ite]
  split
  next heq => exact heq ▸ hrvs ▸ htally _
  · exact htally q

end HeightVoteSet

/-! ## Every reachable state -/

namespace ConsensusState

variable {env : Env} {now : ℤ} {cs cs' cs₀ : ConsensusState}

/-- The vote sets are those of the height, and the caches of the proposer are in range. -/
structure Prepared (env : Env) (cs : ConsensusState) : Prop where
  fits : cs.votes.Fits
  chainID : cs.votes.chainID = env.ligoChainId
  height : cs.votes.height = cs.height
  valSet : cs.votes.valSet = cs.validators
  size : (cs.validators.size : ℤ) ≤ maxInt
  drawn : cs.Drawn
  lock : cs.LockHashes
  nonneg : 0 ≤ cs.round

/-- The round of a proposal is an `int`, which is its type. -/
def typed : Event → Bool
  | .msg (.proposal (some x)) _ => decide (IsInt x.round)
  | _ => true

/-- The input is one that Go's types allow. -/
abbrev Typed (_ : ConsensusState) (input : ℤ × Event) : Prop := typed input.2 = true

theorem Typed.isInt {input : ℤ × Event} (h : Typed cs input) {x : Proposal} {key : String}
    (hx : input.2 = .msg (.proposal (some x)) key) : IsInt x.round := by
  rw [Typed, hx] at h
  exact of_decide_eq_true h

theorem Prepared.of_frame {C : NCBlock → Prop} (h : Prepared env cs)
    (hf : Frame (fun r => 0 ≤ cs.round → 0 ≤ r) C cs cs') : Prepared env cs' where
  fits := hf.votes ▸ h.fits
  chainID := hf.votes ▸ h.chainID
  height := by rw [hf.votes, hf.height]; exact h.height
  valSet := by rw [hf.votes, hf.validators]; exact h.valSet
  size := hf.validators ▸ h.size
  drawn := hf.drawn h.drawn
  lock := hf.lock h.lock
  nonneg := hf.round h.nonneg

/-- The vote sets are replaced by others of the height. -/
theorem Prepared.votes (h : Prepared env cs) {votes : HeightVoteSet} (hfits : votes.Fits)
    (halike : cs.votes.Alike votes) {cs₁ : ConsensusState} (hvotes : cs₁.votes = votes)
    (hheight : cs₁.height = cs.height) (hvalidators : cs₁.validators = cs.validators)
    (hdrawn : cs₁.Drawn) (hlock : cs₁.lockedBlock = cs.lockedBlock) (hround : 0 ≤ cs₁.round) :
    Prepared env cs₁ where
  fits := hvotes ▸ hfits
  chainID := by rw [hvotes, halike.1]; exact h.chainID
  height := by rw [hvotes, halike.2.1, hheight]; exact h.height
  valSet := by rw [hvotes, halike.2.2, hvalidators]; exact h.valSet
  size := hvalidators ▸ h.size
  drawn := hdrawn
  lock block hblock := h.lock block (hlock ▸ hblock)
  nonneg := hround

theorem Prepared.votes_size (h : Prepared env cs) : (cs.votes.valSet.size : ℤ) ≤ maxInt := by
  rw [h.valSet]
  exact h.size

/-- **One input** keeps the vote sets and the caches in order. -/
theorem Prepared.handle (h : Prepared env cs) {input : ℤ × Event}
    (hproposal : ∀ x key, input.2 = .msg (.proposal (some x)) key → IsInt x.round ∨ 0 ≤ x.round)
    (hstep : cs.handle env input = .ok cs') : Prepared env cs' := by
  have hover : ∀ cs₁, HandsOver env (fun _ => True) cs₁ := fun _ _ _ _ _ _ _ _ _ _ => trivial
  have hmeets : Meets (fun _ => True)
      (Follows (Prepared env) (fun r r' => 0 ≤ r → 0 ≤ r') (fun _ => True) cs)
      (cs.handle env input) := by
    refine handle_follows (P := fun r r' => 0 ≤ r → 0 ≤ r') (fun _ _ => trivial) (fun _ => id)
      (hover cs) (fun cs₁ _ => hover cs₁) ?_ ?_ ?_ ?_ ?_
    · exact fun ti _ hle hround => hround.trans hle
    · intro ti round _ _ hle _
      cases hopen : cs.openRound round with
      | error p => trivial
      | ok cs₁ =>
        unfold openRound at hopen
        obtain ⟨aggrs, -, hopen⟩ := Steps.bind_eq_ok.1 hopen
        obtain ⟨votes, hvotes, hopen⟩ := Steps.bind_eq_ok.1 hopen
        cases hopen
        have hnonneg := h.nonneg.trans hle
        split at hvotes <;> obtain ⟨hfits, halike⟩ := h.fits.setRound hvotes
        all_goals
          split
          · exact ⟨h.votes hfits halike rfl rfl rfl ⟨h.drawn.1, h.drawn.2⟩ rfl hnonneg, rfl⟩
          · exact ⟨h.votes hfits halike rfl rfl rfl ⟨h.drawn.1, h.drawn.2⟩ rfl hnonneg, rfl⟩
    · intro x key i hx _ hdrawn
      cases hlow : lowerRound { cs with vrfValIndex := i } x.round with
      | error p => trivial
      | ok cs₁ =>
        have hnonneg := (hproposal x key hx).elim (fun hint => lowerRound_nonneg hint hlow) id
        unfold lowerRound at hlow
        obtain ⟨aggrs, -, hlow⟩ := Steps.bind_eq_ok.1 hlow
        obtain ⟨votes, hvotes, hlow⟩ := Steps.bind_eq_ok.1 hlow
        cases hlow
        obtain ⟨hfits, halike⟩ := h.fits.resetTop2Round hvotes
        exact ⟨h.votes hfits halike rfl rfl rfl ⟨(hdrawn h.drawn).1, (hdrawn h.drawn).2⟩ rfl
          hnonneg, rfl⟩
    · intro s key _ _
      exact ⟨h.fits, h.chainID, h.height, h.valSet, h.size, ⟨h.drawn.1, h.drawn.2⟩, h.lock,
        h.nonneg⟩
    · intro x key p f i _ _ hdrawn _
      cases hadd : cs.votes.addVote env.libs x key with
      | error p => trivial
      | ok r =>
        obtain ⟨hfits, halike⟩ := (h.fits.addVote h.votes_size).of_eq_ok hadd
        exact h.votes hfits halike rfl rfl rfl ⟨(hdrawn h.drawn).1, (hdrawn h.drawn).2⟩ rfl
          h.nonneg
  obtain ⟨cs₁, rfl | h₁, hf⟩ := hmeets.of_eq_ok hstep
  · exact h.of_frame hf
  · exact h₁.of_frame hf

theorem Started.prepared (h : Started env cs₀) (hsize : (cs₀.validators.size : ℤ) ≤ maxInt) :
    Prepared env cs₀ := by
  obtain ⟨ntcExtra, validators, pv, fromMiner, h⟩ := h
  unfold startNewHeight at h
  obtain ⟨votes, hvotes, h⟩ := Steps.bind_eq_ok.1 h
  cases h
  obtain ⟨hfits, hchain, hheight, hvalSet⟩ := HeightVoteSet.new_fits hvotes
  exact ⟨hfits, hchain, hheight, hvalSet, hsize, ⟨by simp, by simp⟩, by simp [LockHashes], le_rfl⟩

/-- **Every reachable state** has its vote sets and the caches of the proposer in order. -/
theorem run_prepared (hstart : Started env cs₀) (hsize : (cs₀.validators.size : ℤ) ≤ maxInt)
    {inputs : List (ℤ × Event)} (hmeets : RunMeets env Typed cs₀ inputs)
    (hrun : run env cs₀ inputs = .ok cs) : Prepared env cs :=
  hmeets.invariant (fun _ _ _ htyped hstep h => h.handle (fun _ _ hx => .inl (htyped.isInt hx))
    hstep) hrun (hstart.prepared hsize)

/-- **Once a seat is drawn**, the proposer of every round is found. -/
theorem Drawn.proposerByRound_returns (h : cs.Drawn) (hvrf : 0 ≤ cs.vrfValIndex) {round : ℤ}
    (hnonneg : 0 ≤ round) (hmax : round + cs.validators.size ≤ maxInt) :
    ∃ r, cs.proposerByRound env now round = .ok r := by
  have hseat := h.seat hvrf
  have hfind : ∀ i : ℤ, 0 ≤ i → i < cs.validators.size →
      ∃ val, cs.validators.validators[i.toNat]? = some val := fun i hlo hhi =>
    ⟨_, List.getElem?_eq_getElem (show i.toNat < cs.validators.validators.length by
      unfold ValidatorSet.size at hhi; omega)⟩
  unfold proposerByRound proposerIndex
  by_cases hzero : round = 0
  · obtain ⟨val, hval⟩ := hfind _ hvrf hseat
    simp [hzero, vrfProposerIndex, hvrf, bind, Except.bind, not_lt.2 hvrf, hval]
  · have hsize : cs.validators.size ≠ 0 := by omega
    have hint : wrapInt (cs.vrfValIndex + round) = cs.vrfValIndex + round :=
      wrapInt_of_isInt ⟨by unfold minInt; omega, by omega⟩
    have hlo : 0 ≤ (cs.vrfValIndex + round).tmod cs.validators.size :=
      Int.tmod_nonneg _ (by omega)
    have hhi : (cs.vrfValIndex + round).tmod cs.validators.size < cs.validators.size :=
      Int.tmod_lt_of_pos _ (by omega)
    obtain ⟨val, hval⟩ := hfind _ hlo hhi
    simp [hzero, not_lt.2 hvrf, hsize, hint, bind, Except.bind, not_lt.2 hlo, hval]

/-- **Once a proposer is named**, that of the current round is found. -/
theorem Drawn.getProposer_returns (h : cs.Drawn) (hnamed : cs.proposer.isSome = true)
    (hnonneg : 0 ≤ cs.round) (hmax : cs.round + cs.validators.size ≤ maxInt) :
    ∃ r, cs.getProposer env now = .ok r := by
  obtain ⟨hvrf, hkey⟩ := h.named hnamed
  obtain ⟨pv, hpv⟩ := Option.isSome_iff_exists.1 hkey
  obtain ⟨⟨cs₁, p⟩, hp⟩ := @Drawn.proposerByRound_returns env now cs h hvrf _ hnonneg hmax
  have hupdate : ∃ r, cs.updateProposer env now = .ok r := by
    obtain ⟨i, hcs₁⟩ := proposerByRound_eq hp
    have hpv₁ : cs₁.privValidator = some pv := by rw [hcs₁]; exact hpv
    unfold updateProposer
    rw [hp]
    simp [bind, Except.bind, hpv₁]
  obtain ⟨r, hr⟩ := hupdate
  unfold getProposer
  split
  · split
    · rw [hr]
      exact ⟨_, rfl⟩
    · exact ⟨_, rfl⟩
  · rw [hr]
    exact ⟨_, rfl⟩

theorem Drawn.isProposer_returns (h : cs.Drawn) (hnamed : cs.proposer.isSome = true)
    (hnonneg : 0 ≤ cs.round) (hmax : cs.round + cs.validators.size ≤ maxInt) :
    ∃ r, cs.isProposer env now = .ok r := by
  obtain ⟨r, hr⟩ := @Drawn.getProposer_returns env now cs h hnamed hnonneg hmax
  unfold isProposer
  rw [hr]
  exact ⟨_, rfl⟩

/-- The errors of `tryAddVote`: `ErrVoteConflictingVotes` and `ErrAddingVote`. -/
inductive TryAddVoteError
  | conflictingVotes (voteA voteB : Vote)
  | addingVote
  deriving DecidableEq, Repr

/-- `tryAddVote`. -/
def tryAddVote (env : Env) (now : ℤ) (cs : ConsensusState) (vote : Option Vote)
    (peerKey : String) : Go (ConsensusState × Option TryAddVoteError) := do
  let (cs, _, err) ← cs.addVote env now vote peerKey
  match err with
  | none => .ok (cs, none)
  | some (.vote (.conflictingVotes voteA voteB)) => .ok (cs, some (.conflictingVotes voteA voteB))
  | some _ => .ok (cs, some .addingVote)

theorem tryAddVote_returns {vote : Option Vote} {peerKey : String} :
    (∃ r, cs.tryAddVote env now vote peerKey = .ok r) ↔
      ∃ r, cs.addVote env now vote peerKey = .ok r := by
  unfold tryAddVote
  cases cs.addVote env now vote peerKey with
  | error p => simp [bind, Except.bind]
  | ok r =>
    obtain ⟨cs₁, added, err⟩ := r
    simp only [bind, Except.bind, Except.ok.injEq, exists_eq', iff_true]
    split <;> exact ⟨_, rfl⟩

theorem tryAddVote_fst {vote : Option Vote} {peerKey : String}
    {r : ConsensusState × Option TryAddVoteError}
    (h : cs.tryAddVote env now vote peerKey = .ok r) :
    ∃ added err, cs.addVote env now vote peerKey = .ok (r.1, added, err) := by
  unfold tryAddVote at h
  obtain ⟨⟨cs₁, added, err⟩, hadd, h⟩ := Steps.bind_eq_ok.1 h
  dsimp only at h
  refine ⟨added, err, hadd.trans ?_⟩
  split at h <;> rw [← Except.ok.inj h]

/-- The proposer counts the vote: it is of the current height and round, its vote set has no
majority yet, and it reaches that set. -/
def Counts (cs : ConsensusState) (vote : Vote) (peerKey : String) : Prop :=
  vote.height = cs.height ∧ ofUint64 vote.round = cs.round ∧
  hasTwoThirdsMajority (if vote.type_ = voteTypePrevote then cs.votes.prevotes cs.round
    else cs.votes.precommits cs.round) = false ∧
  cs.votes.Reaches vote peerKey

theorem Prepared.crashes_iff (h : Prepared env cs) {vote : Vote}
    (hheight : vote.height = cs.height) :
    cs.votes.Crashes vote ↔
      ¬ (vote.validatorAddress ≠ [] ∧ vote.validatorIndex < cs.validators.size) := by
  unfold HeightVoteSet.Crashes
  rw [h.height, h.valSet, not_and_or, not_not, not_lt]
  simp [hheight]

/-- **The votes that the proposer survives.** -/
theorem Prepared.addVote_returns_iff (h : Prepared env cs) {vote : Vote} {peerKey : String}
    (hindex : vote.validatorIndex < 2 ^ 64) :
    (∃ r, cs.addVote env now (some vote) peerKey = .ok r) ↔
      ∃ r, cs.isProposer env now = .ok r ∧ (r.2 = true → cs.Counts vote peerKey →
        vote.validatorAddress ≠ [] ∧ vote.validatorIndex < cs.validators.size) := by
  unfold addVote
  cases hproposer : cs.isProposer env now with
  | error p => simp [bind, Except.bind]
  | ok r =>
    obtain ⟨cs₁, isProposer⟩ := r
    obtain ⟨p, f, i, rfl⟩ := isProposer_eq hproposer
    simp only [bind, Except.bind, Except.ok.injEq, exists_eq_left']
    cases isProposer with
    | false => simp
    | true =>
      simp only [Bool.not_true, Bool.false_eq_true, ↓reduceIte, true_imp_iff]
      split
      next hother =>
        refine ⟨fun _ hcounts => ?_, fun _ => ⟨_, rfl⟩⟩
        exact absurd hother (by simp [hcounts.1, hcounts.2.1])
      next hhere =>
      push Not at hhere
      by_cases hmaj : hasTwoThirdsMajority (if vote.type_ = voteTypePrevote then
        cs.votes.prevotes cs.round else cs.votes.precommits cs.round) = true
      · rw [if_pos hmaj]
        refine ⟨fun _ hcounts => ?_, fun _ => ⟨_, rfl⟩⟩
        exact absurd hmaj (by simp [hcounts.2.2.1])
      rw [if_neg hmaj]
      cases hadd : cs.votes.addVote env.libs vote peerKey with
      | ok r =>
        refine ⟨fun _ hcounts => ?_, fun _ => ⟨_, rfl⟩⟩
        by_contra hcrash
        obtain ⟨p, hp⟩ := h.fits.addVote_eq_error (L := env.libs) hindex hcounts.2.2.2
          ((h.crashes_iff hhere.1).2 hcrash)
        rw [hadd] at hp
        cases hp
      | error p =>
        obtain ⟨hreach, hcrash⟩ := (h.fits.addVote h.votes_size).of_eq_error hadd
        refine ⟨(fun ⟨r, hr⟩ => by cases hr), fun hsafe => ?_⟩
        exact absurd (hsafe ⟨hhere.1, hhere.2, by simpa using hmaj, hreach⟩)
          ((h.crashes_iff hhere.1).1 hcrash)

/-- **A forged vote changes no tally.** -/
theorem Prepared.addVote_of_not_verified (h : Prepared env cs) {vote : Vote} {peerKey : String}
    {r : ConsensusState × Bool × Option HeightVoteSet.AddVoteError}
    (hindex : vote.validatorIndex < 2 ^ 64)
    (hforged : ∀ val, cs.validators.validators[vote.validatorIndex]? = some val →
      env.libs.verifyBytes val.pubKey (env.libs.signBytes env.ligoChainId (canonicalVote vote))
        vote.signature = false)
    (hadd : cs.addVote env now (some vote) peerKey = .ok r) : cs.votes.SameTally r.1.votes := by
  have hsame : cs.votes.SameTally cs.votes := fun _ => .inl rfl
  unfold addVote at hadd
  obtain ⟨⟨cs₁, isProposer⟩, hproposer, hadd⟩ := Steps.bind_eq_ok.1 hadd
  obtain ⟨p, f, i, rfl⟩ := isProposer_eq hproposer
  dsimp only at hadd
  split at hadd
  · cases hadd
    exact hsame
  split at hadd
  · cases hadd
    exact hsame
  by_cases hmaj : hasTwoThirdsMajority (if vote.type_ = voteTypePrevote then
    cs.votes.prevotes cs.round else cs.votes.precommits cs.round) = true
  · rw [if_pos hmaj] at hadd
    cases hadd
    exact hsame
  rw [if_neg hmaj] at hadd
  obtain ⟨⟨votes, added, err⟩, hvotes, hadd⟩ := Steps.bind_eq_ok.1 hadd
  obtain ⟨htally, rfl⟩ := h.fits.addVote_of_not_verified h.votes_size hindex
    (by rw [h.valSet, h.chainID]; exact hforged) hvotes
  cases hadd
  exact htally

/-- **Votes from the network.**  In every reachable state, `tryAddVote` returns on exactly those
votes that the validator does not count as the proposer, or that have an address and the index of
a validator, and a forged vote changes no tally.  `IsProposer`, which it asks first, returns once a
round has been entered. -/
theorem tryAddVote_returns_iff (hstart : Started env cs₀)
    (hsize : (cs₀.validators.size : ℤ) ≤ maxInt) {inputs : List (ℤ × Event)}
    (hmeets : RunMeets env Typed cs₀ inputs) (hrun : run env cs₀ inputs = .ok cs) :
    (∀ now vote peerKey, vote.validatorIndex < 2 ^ 64 →
      ((∃ r, cs.tryAddVote env now (some vote) peerKey = .ok r) ↔
        ∃ r, cs.isProposer env now = .ok r ∧ (r.2 = true → cs.Counts vote peerKey →
          vote.validatorAddress ≠ [] ∧ vote.validatorIndex < cs.validators.size)) ∧
      ((∀ val, cs.validators.validators[vote.validatorIndex]? = some val →
          env.libs.verifyBytes val.pubKey (env.libs.signBytes env.ligoChainId (canonicalVote vote))
            vote.signature = false) →
        ∀ r, cs.tryAddVote env now (some vote) peerKey = .ok r →
          cs.votes.SameTally r.1.votes)) ∧
    (cs.proposer.isSome = true → cs.round + cs.validators.size ≤ maxInt →
      ∀ now, ∃ r, cs.isProposer env now = .ok r) := by
  have h := run_prepared hstart hsize hmeets hrun
  refine ⟨fun now vote peerKey hindex => ⟨?_, fun hforged r hr => ?_⟩, fun hnamed hmax now => ?_⟩
  · rw [tryAddVote_returns]
    exact h.addVote_returns_iff hindex
  · obtain ⟨added, err, hadd⟩ := tryAddVote_fst hr
    exact h.addVote_of_not_verified hindex hforged hadd
  · exact h.drawn.isProposer_returns hnamed h.nonneg hmax

end ConsensusState

open ConsensusState

/-- The prevote of a validator in round `0`, with an address and an index. -/
def PlainEnv.voteAs (key : UInt8) (address : Bytes) (index : ℕ) : Vote :=
  (PlainEnv.privValidator key).signVote PlainEnv.libs PlainEnv.chainID
    { validatorAddress := address
      validatorIndex := index
      height := 1
      round := 0
      type_ := voteTypePrevote
      blockID := PlainEnv.blockID 7
      signature := []
      signBytes := [] }

/-- The proposer of round `0` enters the round. -/
def PlainEnv.proposerEnters : List (ℤ × Event) := [(1, .timeout ⟨1, 0, .newHeight⟩)]

/-- The proposer takes the vote of the first validator. -/
theorem tryAddVote_returns_iff_known : ∃ cs₀ cs, Started PlainEnv.env cs₀ ∧
    (cs₀.validators.size : ℤ) ≤ maxInt ∧
    RunMeets PlainEnv.env Typed cs₀ PlainEnv.proposerEnters ∧
    run PlainEnv.env cs₀ PlainEnv.proposerEnters = .ok cs ∧
    ∃ r, cs.tryAddVote PlainEnv.env 2 (some (PlainEnv.voteAs 1 [1] 0)) "p" = .ok r := by
  obtain ⟨cs₀, hstart, hsize, hmeets, cs, hrun, hpos, hnamed, hmax⟩ :
      ∃ cs₀, PlainEnv.start 2 = .ok cs₀ ∧ (cs₀.validators.size : ℤ) ≤ maxInt ∧
        RunMeets PlainEnv.env Typed cs₀ PlainEnv.proposerEnters ∧
        ∃ cs, run PlainEnv.env cs₀ PlainEnv.proposerEnters = .ok cs ∧ 0 < cs.validators.size ∧
          cs.proposer.isSome = true ∧ cs.round + cs.validators.size ≤ maxInt := by
    decide +kernel
  have hstarted : Started PlainEnv.env cs₀ := ⟨_, _, _, _, hstart⟩
  obtain ⟨hiff, hreturns⟩ := tryAddVote_returns_iff hstarted hsize hmeets hrun
  obtain ⟨r, hr⟩ := hreturns hnamed hmax 2
  exact ⟨cs₀, cs, hstarted, hsize, hmeets, hrun,
    (hiff 2 (PlainEnv.voteAs 1 [1] 0) "p" (by decide)).1.2
      ⟨r, hr, fun _ _ => ⟨by decide, hpos⟩⟩⟩

/-- **One vote stops the proposer**: with the index of no validator, or without an address.
Neither needs a signature. -/
theorem vote_crashes_proposer : ∃ cs₀ cs, Started PlainEnv.env cs₀ ∧
    RunMeets PlainEnv.env (fun cs input => cs.Fires input.2) cs₀ PlainEnv.proposerEnters ∧
    run PlainEnv.env cs₀ PlainEnv.proposerEnters = .ok cs ∧
    cs.tryAddVote PlainEnv.env 2
      (some { PlainEnv.voteAs 1 [1] 3 with signature := [] }) "p" = .error .index ∧
    cs.tryAddVote PlainEnv.env 2 (some { PlainEnv.voteAs 1 [] 0 with signature := [] }) "p" =
      .error (.sanity "Validator index or address was not set in vote.") := by
  obtain ⟨cs₀, hstart, hfires, cs, hrun, hcrashes⟩ : ∃ cs₀, PlainEnv.start 2 = .ok cs₀ ∧
      RunMeets PlainEnv.env (fun cs input => cs.Fires input.2) cs₀ PlainEnv.proposerEnters ∧
      ∃ cs, run PlainEnv.env cs₀ PlainEnv.proposerEnters = .ok cs ∧
        cs.tryAddVote PlainEnv.env 2
          (some { PlainEnv.voteAs 1 [1] 3 with signature := [] }) "p" = .error .index ∧
        cs.tryAddVote PlainEnv.env 2 (some { PlainEnv.voteAs 1 [] 0 with signature := [] }) "p" =
          .error (.sanity "Validator index or address was not set in vote.") := by
    decide +kernel
  exact ⟨cs₀, cs, ⟨_, _, _, _, hstart⟩, hfires, hrun, hcrashes⟩

end Consensus

end LigoChain
