/-
# The bookkeeping of a vote set

`VoteSet` keeps the votes twice: one vote a validator in `votes`, and the votes for each
tracked block in `votesByBlock`, with the power behind each.  `VoteSet.Inv` says how the two
agree, and `VoteSet.MajStep` how `maj23` moves: it is set once, to the first block whose votes
reach the quorum of the round.

Two things break it.  When a validator that has voted for another block votes for the block
of `maj23`, `addVerifiedVote` writes the vote to `votes` first and then drops it if no peer
has claimed that block: `votes` then has a vote that `votesByBlock` has not
(`conflicting_vote_not_in_block`).  And `BlockID.Key` puts a hash of any length before the
header of the parts, so two identifiers can have one key, and then share an entry.
`VoteSet.Tracks` excludes both, and `call_inv` shows that every other call keeps the invariant.
-/

import LigoChain.Types.VoteSet
import LigoChain.Types.QuorumSoundness

namespace LigoChain

open GoInt

theorem ValidatorSet.powerOf_set {valSet : ValidatorSet} {bits : BitArray} {i : ℕ}
    {val : Validator} (hval : valSet.validators[i]? = some val) (hbit : bits[i]? = some false) :
    valSet.powerOf (bits.set i true) = valSet.powerOf bits + val.votingPower := by
  rw [powerOf_eq_weight, powerOf_eq_weight]
  exact Majority.weight_set (by rw [List.getElem?_map, hval]; rfl) hbit

/-- The tally of a bit array of the right size. -/
theorem ValidatorSet.exists_talliedVotingPower {valSet : ValidatorSet} {bits : BitArray} {i : ℕ}
    {val : Validator} (hval : valSet.validators[i]? = some val) (hsize : valSet.size = bits.length) :
    ∃ count votes, valSet.talliedVotingPower (some bits) = .ok (count, votes, valSet.totalPower) := by
  have hne : valSet.validators.isEmpty = false := by
    cases hl : valSet.validators with
    | nil => simp [hl] at hval
    | cons => rfl
  obtain ⟨⟨count, votes, total⟩, hok⟩ : ∃ x, valSet.talliedVotingPower (some bits) = .ok x := by
    simp [talliedVotingPower, hne, hsize]
  obtain ⟨_, -, -, -, rfl⟩ := valSet.talliedVotingPower_eq_ok hok
  exact ⟨count, votes, hok⟩

/-- The votes with one key: the bits mark them and the sum is their power. -/
structure BlockVotes.Tallies (valSet : ValidatorSet) (key : Bytes) (bv : BlockVotes) : Prop where
  length : bv.votes.length = valSet.size
  bitArray : bv.bitArray = bv.votes.map Option.isSome
  sum : bv.sum = valSet.powerOf bv.bitArray
  key : ∀ v, some v ∈ bv.votes → v.blockID.key = key

theorem newBlockVotes_tallies (valSet : ValidatorSet) (key : Bytes) (peerMaj23 : Bool) :
    (newBlockVotes peerMaj23 valSet.size).Tallies valSet key where
  length := List.length_replicate
  bitArray := by simp [newBlockVotes]
  sum := by
    rw [ValidatorSet.powerOf_eq_weight]
    exact (Majority.weight_replicate_false _ _).symm
  key := fun v hv => by simp [newBlockVotes, List.mem_replicate] at hv

/-- A validator without a vote of the key votes. -/
theorem BlockVotes.Tallies.addVerifiedVote {valSet : ValidatorSet} {bv : BlockVotes} {vote : Vote}
    {val : Validator} (h : bv.Tallies valSet vote.blockID.key)
    (hnone : bv.votes[vote.validatorIndex]? = some none)
    (hval : valSet.validators[vote.validatorIndex]? = some val) :
    ∃ bv', bv.addVerifiedVote vote val.votingPower = .ok bv' ∧
      bv'.Tallies valSet vote.blockID.key ∧
      bv'.votes = bv.votes.set vote.validatorIndex (some vote) ∧
      bv'.sum = bv.sum + val.votingPower := by
  have hbits : (bv.votes.set vote.validatorIndex (some vote)).map Option.isSome =
      bv.bitArray.set vote.validatorIndex true := by
    rw [List.map_set, h.bitArray]
    rfl
  refine ⟨_, by rw [BlockVotes.addVerifiedVote, hnone], ⟨?_, hbits.symm, ?_, fun v hv => ?_⟩,
    rfl, rfl⟩
  · rw [List.length_set]
    exact h.length
  · show bv.sum + val.votingPower = _
    rw [h.sum, ValidatorSet.powerOf_set hval]
    rw [h.bitArray, List.getElem?_map, hnone]
    rfl
  · rcases VoteSet.mem_set_some hv with rfl | hv
    · rfl
    · exact h.key v hv

/-- The votes for a block: the bits mark them, the sum is their power, and they are for one
block. -/
structure BlockVotes.Wf (valSet : ValidatorSet) (key : Bytes) (bv : BlockVotes) : Prop where
  length : bv.votes.length = valSet.size
  bitArray : bv.bitArray = bv.votes.map Option.isSome
  sum : bv.sum = valSet.powerOf bv.bitArray
  key : ∀ v, some v ∈ bv.votes → v.blockID.key = key
  blockID : ∀ v w, some v ∈ bv.votes → some w ∈ bv.votes → v.blockID = w.blockID

theorem BlockVotes.Wf.tallies {valSet : ValidatorSet} {key : Bytes} {bv : BlockVotes}
    (h : bv.Wf valSet key) : bv.Tallies valSet key := ⟨h.length, h.bitArray, h.sum, h.key⟩

theorem BlockVotes.Tallies.wf {valSet : ValidatorSet} {key : Bytes} {bv : BlockVotes}
    (h : bv.Tallies valSet key)
    (hblock : ∀ v w, some v ∈ bv.votes → some w ∈ bv.votes → v.blockID = w.blockID) :
    bv.Wf valSet key := ⟨h.length, h.bitArray, h.sum, h.key, hblock⟩

theorem newBlockVotes_wf (valSet : ValidatorSet) (key : Bytes) (peerMaj23 : Bool) :
    (newBlockVotes peerMaj23 valSet.size).Wf valSet key :=
  (newBlockVotes_tallies valSet key peerMaj23).wf fun v w hv => by
    simp [newBlockVotes, List.mem_replicate] at hv

/-- A validator without a vote for the block votes for it. -/
theorem BlockVotes.Wf.addVerifiedVote {valSet : ValidatorSet} {bv : BlockVotes} {vote : Vote}
    {val : Validator} (h : bv.Wf valSet vote.blockID.key)
    (hnone : bv.votes[vote.validatorIndex]? = some none)
    (hval : valSet.validators[vote.validatorIndex]? = some val)
    (hblock : ∀ v, some v ∈ bv.votes → v.blockID = vote.blockID) :
    ∃ bv', bv.addVerifiedVote vote val.votingPower = .ok bv' ∧ bv'.Wf valSet vote.blockID.key ∧
      (∀ v, some v ∈ bv'.votes → v.blockID = vote.blockID) ∧
      ∀ i : ℕ, bv'.votes[i]? =
        if i = vote.validatorIndex then some (some vote) else bv.votes[i]? := by
  obtain ⟨bv', hadd, htallies, hvotes, -⟩ := h.tallies.addVerifiedVote hnone hval
  have hmem : ∀ v, some v ∈ bv'.votes → v.blockID = vote.blockID := fun v hv => by
    rw [hvotes] at hv
    rcases VoteSet.mem_set_some hv with rfl | hv
    · rfl
    · exact hblock v hv
  refine ⟨bv', hadd, htallies.wf fun v w hv hw => (hmem v hv).trans (hmem w hw).symm, hmem,
    fun i => ?_⟩
  have hlt := (List.getElem?_eq_some_iff.1 hnone).1
  rw [hvotes]
  by_cases hi : i = vote.validatorIndex
  · simp [hi, hlt]
  · rw [if_neg hi]
    exact List.getElem?_set_ne (Ne.symm hi)

namespace VoteSet

/-- The quorum of the round. -/
def quorum (voteSet : VoteSet) : ℤ := loose23MajorThreshold voteSet.valSet.totalPower voteSet.round

/-- How the parts of a vote set agree, but for votes that are still to be added to the entry
of their block. -/
structure Agrees (pending : ℕ → Vote → Prop) (voteSet : VoteSet) : Prop where
  length : voteSet.votes.length = voteSet.valSet.size
  votesBitArray : voteSet.votesBitArray = voteSet.votes.map Option.isSome
  sum : voteSet.sum = voteSet.valSet.powerOf voteSet.votesBitArray
  blocks : ∀ key bv, voteSet.votesByBlock.lookup key = some bv → bv.Wf voteSet.valSet key
  counted : ∀ key bv (i : ℕ) v, voteSet.votesByBlock.lookup key = some bv →
    bv.votes[i]? = some (some v) → ∃ w, voteSet.votes[i]? = some (some w)
  inBlock : ∀ (i : ℕ) v, voteSet.votes[i]? = some (some v) → ¬ pending i v →
    ∃ bv, voteSet.votesByBlock.lookup v.blockID.key = some bv ∧ bv.votes[i]? = some (some v)
  below : voteSet.maj23 = none → ∀ key bv, voteSet.votesByBlock.lookup key = some bv →
    bv.sum < voteSet.quorum
  majority : ∀ blockID, voteSet.maj23 = some blockID →
    ∃ bv, voteSet.votesByBlock.lookup blockID.key = some bv

/-- **The invariant of a vote set**: no vote is pending. -/
def Inv (voteSet : VoteSet) : Prop := voteSet.Agrees fun _ _ => False

/-- How `maj23` moves: it stays once it is set, and it is set to the block of an entry that
reaches the quorum. -/
structure MajStep (voteSet voteSet' : VoteSet) : Prop where
  stays : ∀ blockID, voteSet.maj23 = some blockID → voteSet'.maj23 = some blockID
  reached : voteSet.maj23 = none → ∀ blockID, voteSet'.maj23 = some blockID →
    ∃ bv, voteSet'.votesByBlock.lookup blockID.key = some bv ∧ voteSet'.quorum ≤ bv.sum ∧
      ∀ v, some v ∈ bv.votes → v.blockID = blockID

theorem MajStep.of_eq {voteSet voteSet' : VoteSet} (h : voteSet'.maj23 = voteSet.maj23) :
    MajStep voteSet voteSet' where
  stays := fun blockID hb => h.trans hb
  reached := fun hnone blockID hb => by
    rw [h, hnone] at hb
    exact absurd hb.symm (Option.some_ne_none _)

variable {voteSet : VoteSet} {vote : Vote} {val : Validator}

theorem newVoteSet_inv {chainID : String} {height : ℕ} {round : ℤ} {type_ : ℕ}
    {valSet : ValidatorSet} (h : newVoteSet chainID height round type_ valSet = .ok voteSet) :
    voteSet.Inv ∧ voteSet.valSet = valSet ∧ voteSet.round = round := by
  unfold newVoteSet at h
  split_ifs at h
  cases h
  have hno : ∀ {key : Bytes} {bv : BlockVotes},
      AList.lookup key (∅ : GoMap Bytes BlockVotes) = some bv → False := fun h => by simp at h
  refine ⟨⟨List.length_replicate, by simp, ?_, fun _ _ h => (hno h).elim,
    fun _ _ _ _ h => (hno h).elim, fun i v hv => ?_, fun _ _ _ h => (hno h).elim,
    fun b hb => absurd hb (Option.some_ne_none b).symm⟩, rfl, rfl⟩
  · rw [ValidatorSet.powerOf_eq_weight]
    exact (Majority.weight_replicate_false _ _).symm
  · simp [List.getElem?_replicate] at hv

/-- The vote is written to `votes`, and is then pending. -/
theorem Inv.place (h : voteSet.Inv) (hlt : vote.validatorIndex < voteSet.votes.length)
    {bits : BitArray} {sum : ℤ}
    (hbits : bits = (voteSet.votes.set vote.validatorIndex (some vote)).map Option.isSome)
    (hsum : sum = voteSet.valSet.powerOf bits) :
    Agrees (fun i v => i = vote.validatorIndex ∧ v = vote)
      { voteSet with
        votes := voteSet.votes.set vote.validatorIndex (some vote)
        votesBitArray := bits
        sum := sum } := by
  refine ⟨by rw [List.length_set]; exact h.length, hbits, hsum, h.blocks, fun key bv i v hk hv => ?_,
    fun i v hv hpending => ?_, h.below, h.majority⟩
  · obtain ⟨w, hw⟩ := h.counted key bv i v hk hv
    simp only [List.getElem?_set]
    split_ifs with hi
    · exact ⟨vote, by simp⟩
    · exact ⟨w, hw⟩
  · simp only [List.getElem?_set] at hv
    split_ifs at hv with hi
    · exact absurd ⟨hi.symm, (Option.some.inj (Option.some.inj hv)).symm⟩ hpending
    · exact h.inBlock i v hv id

/-- `placeVote`: the vote of a validator without one, and one that is replaced. -/
theorem Inv.placeVote (h : voteSet.Inv)
    (hval : voteSet.valSet.validators[vote.validatorIndex]? = some val)
    {key : Bytes} {placed : VoteSet} {conflicting : Option Vote}
    (hplace : voteSet.placeVote vote key val.votingPower = .ok (placed, conflicting)) :
    placed.votesByBlock = voteSet.votesByBlock ∧ placed.maj23 = voteSet.maj23 ∧
      SameHeader voteSet placed ∧ (∃ w, placed.votes[vote.validatorIndex]? = some (some w)) ∧
      ((placed.Agrees (fun i v => i = vote.validatorIndex ∧ v = vote) ∧
          (conflicting = none ∨ voteSet.maj23.map BlockID.key = some key)) ∨
        (placed.Inv ∧ conflicting ≠ none)) ∧
      (∀ w, conflicting = some w → voteSet.votes[vote.validatorIndex]? = some (some w) ∧
        w.blockID ≠ vote.blockID) := by
  have hbits : (voteSet.votes.set vote.validatorIndex (some vote)).map Option.isSome =
      voteSet.votesBitArray.set vote.validatorIndex true := by
    rw [List.map_set, h.votesBitArray]
    rfl
  rcases placeVote_cases hplace with ⟨hnone, rfl, rfl⟩ |
    ⟨existing, hexisting, hother, rfl, rfl | ⟨hmaj, rfl⟩⟩
  · have hlt := (List.getElem?_eq_some_iff.1 hnone).1
    refine ⟨rfl, rfl, ⟨rfl, rfl, rfl, rfl, rfl⟩, ⟨vote, by simp [hlt]⟩,
      .inl ⟨h.place hlt hbits.symm ?_, .inl rfl⟩, fun w hw => by cases hw⟩
    rw [ValidatorSet.powerOf_set hval, h.sum]
    rw [h.votesBitArray, List.getElem?_map, hnone]
    rfl
  · exact ⟨rfl, rfl, SameHeader.refl _, ⟨existing, hexisting⟩, .inr ⟨h, Option.some_ne_none _⟩,
      fun w hw => Option.some.inj hw ▸ ⟨hexisting, hother⟩⟩
  · have hlt := (List.getElem?_eq_some_iff.1 hexisting).1
    refine ⟨rfl, rfl, ⟨rfl, rfl, rfl, rfl, rfl⟩, ⟨vote, by simp [hlt]⟩,
      .inl ⟨h.place hlt hbits.symm ?_, .inr hmaj⟩,
      fun w hw => Option.some.inj hw ▸ ⟨hexisting, hother⟩⟩
    -- the bit of the validator is set already
    have hset : voteSet.votesBitArray.set vote.validatorIndex true = voteSet.votesBitArray := by
      refine List.ext_getElem? fun i => ?_
      rw [List.getElem?_set]
      split_ifs with hi hi'
      · rw [← hi, h.votesBitArray, List.getElem?_map, hexisting]
        rfl
      · exact (List.getElem?_eq_none (by omega)).symm
      · rfl
    rw [hset]
    exact h.sum

/-- The votes of the block are copied over `votes`, which have one of each of their voters. -/
theorem getElem?_copyVotes {votes blockVotes : List (Option Vote)}
    (hlength : blockVotes.length = votes.length) (i : ℕ) (v : Vote) :
    (copyVotes votes blockVotes)[i]? = some (some v) ↔
      blockVotes[i]? = some (some v) ∨ blockVotes[i]? = some none ∧ votes[i]? = some (some v) := by
  unfold copyVotes
  rw [List.getElem?_zipWith]
  cases hb : blockVotes[i]? with
  | none => cases votes[i]? <;> simp
  | some w =>
    obtain ⟨u, hu⟩ : ∃ u, votes[i]? = some u := by
      have hlt := (List.getElem?_eq_some_iff.1 hb).1
      exact ⟨_, List.getElem?_eq_getElem (hlength ▸ hlt)⟩
    rw [hu]
    cases w with
    | none => simp
    | some w => simp

theorem map_isSome_copyVotes {votes blockVotes : List (Option Vote)}
    (hlength : blockVotes.length = votes.length)
    (hvoted : ∀ (i : ℕ) v, blockVotes[i]? = some (some v) → ∃ w, votes[i]? = some (some w)) :
    (copyVotes votes blockVotes).map Option.isSome = votes.map Option.isSome := by
  refine List.ext_getElem? fun i => ?_
  unfold copyVotes
  rw [List.getElem?_map, List.getElem?_map, List.getElem?_zipWith]
  cases hb : blockVotes[i]? with
  | none =>
    have hnone : votes[i]? = none := by
      rw [List.getElem?_eq_none_iff] at hb ⊢
      omega
    rw [hnone]
  | some w =>
    cases w with
    | none => cases votes[i]? <;> rfl
    | some v =>
      obtain ⟨w, hw⟩ := hvoted i v hb
      rw [hw]
      rfl

/-- An entry that keeps the votes of its block and has those that were pending, and what else the
quorum changes. -/
theorem Agrees.insert {pending : ℕ → Vote → Prop} (h : voteSet.Agrees pending) {key : Bytes}
    {bv : BlockVotes} (hbv : bv.Wf voteSet.valSet key)
    (hpending : ∀ i v, pending i v → v.blockID.key = key ∧ bv.votes[i]? = some (some v))
    (hcounted : ∀ (i : ℕ) v, bv.votes[i]? = some (some v) → ∃ w, voteSet.votes[i]? = some (some w))
    (hkept : ∀ bv₀, voteSet.votesByBlock.lookup key = some bv₀ → ∀ (i : ℕ) v,
      bv₀.votes[i]? = some (some v) → bv.votes[i]? = some (some v))
    {votes : List (Option Vote)} (hsome : votes.map Option.isSome = voteSet.votes.map Option.isSome)
    (hvotes : ∀ (i : ℕ) v, votes[i]? = some (some v) →
      voteSet.votes[i]? = some (some v) ∨ bv.votes[i]? = some (some v))
    {maj23 : Option BlockID} (hbelow : maj23 = none → voteSet.maj23 = none ∧ bv.sum < voteSet.quorum)
    (hmaj : ∀ blockID, maj23 = some blockID → voteSet.maj23 = some blockID ∨ blockID.key = key)
    {peerMaj23s : GoMap String BlockID} :
    Inv { voteSet with
      peerMaj23s := peerMaj23s
      votesByBlock := voteSet.votesByBlock.insert key bv
      maj23 := maj23
      votes := votes } := by
  have hlookup := fun k => GoMap.lookup_insert_ite voteSet.votesByBlock key k bv
  have hlength : votes.length = voteSet.votes.length := by
    simpa using congrArg List.length hsome
  -- `votes` has votes of the same validators
  have hvoter : ∀ (i : ℕ) w, voteSet.votes[i]? = some (some w) → ∃ w', votes[i]? = some (some w') := by
    intro i w hw
    have hi := congrArg (fun l : List Bool => l[i]?) hsome
    simp only [List.getElem?_map, hw] at hi
    obtain ⟨x, hx, hx'⟩ := Option.map_eq_some_iff.1 hi
    obtain ⟨w', rfl⟩ := Option.isSome_iff_exists.1 hx'
    exact ⟨w', hx⟩
  refine ⟨hlength.trans h.length, h.votesBitArray.trans hsome.symm, h.sum, fun k bv₁ hk => ?_,
    fun k bv₁ i v hk hv => ?_, fun i v hv _ => ?_, fun hnone k bv₁ hk => ?_, fun b hb => ?_⟩
  · rw [hlookup] at hk
    split_ifs at hk with hkey
    · cases hk
      exact hkey ▸ hbv
    · exact h.blocks k bv₁ hk
  · rw [hlookup] at hk
    split_ifs at hk with hkey
    · cases hk
      obtain ⟨w, hw⟩ := hcounted i v hv
      exact hvoter i w hw
    · obtain ⟨w, hw⟩ := h.counted k bv₁ i v hk hv
      exact hvoter i w hw
  · rw [hlookup]
    rcases hvotes i v hv with hv | hv
    · by_cases hpend : pending i v
      · obtain ⟨hkey, hv⟩ := hpending i v hpend
        exact ⟨bv, if_pos hkey, hv⟩
      · obtain ⟨bv₁, hlook, hv₁⟩ := h.inBlock i v hv hpend
        by_cases hkey : v.blockID.key = key
        · exact ⟨bv, if_pos hkey, hkept bv₁ (hkey ▸ hlook) i v hv₁⟩
        · exact ⟨bv₁, (if_neg hkey).trans hlook, hv₁⟩
    · exact ⟨bv, if_pos (hbv.key v (List.mem_of_getElem? hv)), hv⟩
  · obtain ⟨hnone', hsum⟩ := hbelow hnone
    rw [hlookup] at hk
    split_ifs at hk with hkey
    · cases hk
      exact hsum
    · exact h.below hnone' k bv₁ hk
  · rw [hlookup]
    split_ifs with hkey
    · exact ⟨bv, rfl⟩
    · exact h.majority b ((hmaj b hb).resolve_right hkey)

/-- **The second part of `addVerifiedVote`**: the pending vote goes to the entry of its block. -/
theorem Agrees.countVote
    (h : voteSet.Agrees fun i v => i = vote.validatorIndex ∧ v = vote)
    (hhere : ∃ w, voteSet.votes[vote.validatorIndex]? = some (some w))
    (hval : voteSet.valSet.validators[vote.validatorIndex]? = some val)
    (hround : ofUint64 vote.round = voteSet.round) {bv : BlockVotes}
    (hbv : bv.Wf voteSet.valSet vote.blockID.key)
    (hlookup : ∀ bv', voteSet.votesByBlock.lookup vote.blockID.key = some bv' → bv' = bv)
    (hcounted : ∀ (i : ℕ) v, bv.votes[i]? = some (some v) → ∃ w, voteSet.votes[i]? = some (some w))
    (hnone : bv.votes[vote.validatorIndex]? = some none)
    (hblock : ∀ v, some v ∈ bv.votes → v.blockID = vote.blockID)
    (hbelow : voteSet.maj23 = none → bv.sum < voteSet.quorum) :
    ∃ voteSet', voteSet.countVote vote vote.blockID.key val.votingPower bv = .ok (voteSet', true) ∧
      voteSet'.Inv ∧ MajStep voteSet voteSet' ∧ SameHeader voteSet voteSet' := by
  obtain ⟨bv', hadd, hbv', hblock', hget⟩ := hbv.addVerifiedVote hnone hval hblock
  obtain ⟨c, v, htally⟩ := ValidatorSet.exists_talliedVotingPower hval
    (show voteSet.valSet.size = bv.bitArray.length by rw [hbv.bitArray, List.length_map, hbv.length])
  have hquorum : loose23MajorThreshold voteSet.valSet.totalPower (ofUint64 vote.round) =
      voteSet.quorum := by
    rw [hround]
    rfl
  have hvote : ∀ i v, i = vote.validatorIndex ∧ v = vote →
      v.blockID.key = vote.blockID.key ∧ bv'.votes[i]? = some (some v) := by
    rintro i v ⟨rfl, rfl⟩
    exact ⟨rfl, by rw [hget, if_pos rfl]⟩
  have hcounted' : ∀ (i : ℕ) v, bv'.votes[i]? = some (some v) →
      ∃ w, voteSet.votes[i]? = some (some w) := fun i v hv => by
    rw [hget] at hv
    split_ifs at hv with hi
    · exact hi ▸ hhere
    · exact hcounted i v hv
  have hkept : ∀ bv₀, voteSet.votesByBlock.lookup vote.blockID.key = some bv₀ → ∀ (i : ℕ) v,
      bv₀.votes[i]? = some (some v) → bv'.votes[i]? = some (some v) := fun bv₀ h₀ i v hv => by
    obtain rfl := hlookup bv₀ h₀
    rw [hget]
    split_ifs with hi
    · rw [hi, hnone] at hv
      exact absurd (Option.some.inj hv) (Option.some_ne_none v).symm
    · exact hv
  unfold VoteSet.countVote
  simp only [htally, hadd, hquorum, bind, Except.bind]
  split_ifs with hcross
  · -- the quorum is reached for the first time: the votes for the block go to `votes`
    obtain ⟨hlow, hhigh, hmaj⟩ := hcross
    have hlength : bv'.votes.length = voteSet.votes.length := hbv'.length.trans h.length.symm
    refine ⟨_, rfl, h.insert hbv' hvote hcounted' hkept ?_ (fun i v hv => ?_)
      (fun hnone => absurd hnone (Option.some_ne_none _)) fun b hb => .inr ?_, ⟨fun b hb => ?_,
      fun _ b hb => ?_⟩, rfl, rfl, rfl, rfl, rfl⟩
    · exact map_isSome_copyVotes hlength hcounted'
    · rcases (getElem?_copyVotes hlength i v).1 hv with hv | ⟨-, hv⟩
      · exact .inr hv
      · exact .inl hv
    · rw [← Option.some.inj hb]
    · rw [hmaj] at hb
      exact absurd hb.symm (Option.some_ne_none b)
    · cases hb
      exact ⟨bv', AList.lookup_insert _, hhigh, hblock'⟩
  · refine ⟨_, rfl, h.insert hbv' hvote hcounted' hkept rfl (fun i v hv => .inl hv) (fun hnone => ?_)
      fun b hb => .inl hb, .of_eq rfl, rfl, rfl, rfl, rfl, rfl⟩
    refine ⟨hnone, not_le.1 fun hhigh => hcross ⟨hbelow hnone, hhigh, hnone⟩⟩

/-! ## The calls -/

/-- What a call to `AddVote` has to meet: the votes with the key of the block are for the
block, and a vote that takes the place of another for the block of `maj23` is for a block that
a peer has claimed.  (The index of a validator is a `uint64`.) -/
structure Tracks (voteSet : VoteSet) (vote : Vote) : Prop where
  index : vote.validatorIndex < 2 ^ 64
  blockID : ∀ bv v, voteSet.votesByBlock.lookup vote.blockID.key = some bv → some v ∈ bv.votes →
    v.blockID = vote.blockID
  peerMaj23 : voteSet.maj23.map BlockID.key = some vote.blockID.key →
    ∀ v, voteSet.votes[vote.validatorIndex]? = some (some v) → v.blockID ≠ vote.blockID →
    ∀ bv, voteSet.votesByBlock.lookup vote.blockID.key = some bv → bv.peerMaj23 = true

theorem Inv.agrees (h : voteSet.Inv) (pending : ℕ → Vote → Prop) : voteSet.Agrees pending :=
  ⟨h.length, h.votesBitArray, h.sum, h.blocks, h.counted, fun i v hv _ => h.inBlock i v hv id,
    h.below, h.majority⟩

theorem MajStep.trans {a b c : VoteSet} (hab : b.maj23 = a.maj23) (h : MajStep b c) : MajStep a c :=
  ⟨fun blockID ha => h.stays blockID (hab.trans ha), fun ha => h.reached (hab.trans ha)⟩

theorem SameHeader.quorum {voteSet' : VoteSet} (h : SameHeader voteSet voteSet') :
    voteSet'.quorum = voteSet.quorum := by
  unfold VoteSet.quorum
  rw [h.valSet, h.round]

/-- **`addVerifiedVote` keeps the invariant.** -/
theorem Inv.addVerifiedVote (h : voteSet.Inv) (hpos : 0 < voteSet.quorum)
    (hval : voteSet.valSet.validators[vote.validatorIndex]? = some val)
    (hround : ofUint64 vote.round = voteSet.round)
    (hfresh : ∀ bv, voteSet.votesByBlock.lookup vote.blockID.key = some bv →
      bv.votes[vote.validatorIndex]? = some none)
    (htracks : voteSet.Tracks vote) {voteSet' : VoteSet} {added : Bool} {conflicting : Option Vote}
    (hadd : voteSet.addVerifiedVote vote vote.blockID.key val.votingPower =
      .ok (voteSet', added, conflicting)) :
    voteSet'.Inv ∧ MajStep voteSet voteSet' ∧ SameHeader voteSet voteSet' := by
  obtain ⟨placed, hplace, hcases⟩ := addVerifiedVote_cases hadd
  obtain ⟨hblocks, hmaj, hsame, hhere, hstate, hconf⟩ := h.placeVote hval hplace
  rcases hcases with ⟨rfl, hconflict, hunclaimed⟩ | ⟨bv, hcount, hbv⟩
  · -- a vote that is dropped was not written: it would have the key of a block that is claimed
    rcases hstate with ⟨-, rfl | hkey⟩ | ⟨hinv, -⟩
    · cases hconflict
    · obtain ⟨w, rfl⟩ := Option.isSome_iff_exists.1 hconflict
      obtain ⟨hw, hne⟩ := hconf w rfl
      obtain ⟨b, hb, hkey'⟩ := Option.map_eq_some_iff.1 hkey
      obtain ⟨bv, hbv⟩ := h.majority b hb
      rw [hkey'] at hbv
      have hclaimed := htracks.peerMaj23 hkey w hw hne bv hbv
      rw [hunclaimed bv (hblocks ▸ hbv)] at hclaimed
      cases hclaimed
    · exact ⟨hinv, .of_eq hmaj, hsame⟩
  have hagrees : placed.Agrees fun i v => i = vote.validatorIndex ∧ v = vote := by
    rcases hstate with ⟨hagrees, -⟩ | ⟨hinv, -⟩
    · exact hagrees
    · exact hinv.agrees _
  have hval' : placed.valSet.validators[vote.validatorIndex]? = some val := by
    rw [hsame.valSet]
    exact hval
  -- the vote goes to an entry that has no vote of the validator
  obtain ⟨hwf, hlookup, hcounted, hnone, hblock, hbelow⟩ : bv.Wf placed.valSet vote.blockID.key ∧
      (∀ bv', placed.votesByBlock.lookup vote.blockID.key = some bv' → bv' = bv) ∧
      (∀ (i : ℕ) v, bv.votes[i]? = some (some v) → ∃ w, placed.votes[i]? = some (some w)) ∧
      bv.votes[vote.validatorIndex]? = some none ∧
      (∀ v, some v ∈ bv.votes → v.blockID = vote.blockID) ∧
      (placed.maj23 = none → bv.sum < placed.quorum) := by
    rcases hbv with hbv | ⟨hnone, -, rfl⟩
    · have hbv' : voteSet.votesByBlock.lookup vote.blockID.key = some bv := hblocks ▸ hbv
      exact ⟨hagrees.blocks _ bv hbv, fun bv' h' => Option.some.inj (h'.symm.trans hbv),
        fun i v hv => hagrees.counted _ bv i v hbv hv, hfresh bv hbv',
        fun v hv => htracks.blockID bv v hbv' hv, fun hnone => hagrees.below hnone _ bv hbv⟩
    · have hlt : vote.validatorIndex < voteSet.valSet.size := (List.getElem?_eq_some_iff.1 hval).1
      have hempty : ∀ (i : ℕ) v,
          (newBlockVotes false voteSet.valSet.size).votes[i]? ≠ some (some v) :=
        fun i v hv => by simp [newBlockVotes, List.getElem?_replicate] at hv
      refine ⟨hsame.valSet ▸ newBlockVotes_wf voteSet.valSet _ false,
        fun bv' h' => (by cases hnone.symm.trans h'), fun i v hv => absurd hv (hempty i v),
        by simp [newBlockVotes, hlt], fun v hv => ?_, fun _ => by rw [hsame.quorum]; exact hpos⟩
      simp [newBlockVotes, List.mem_replicate] at hv
  obtain ⟨vs, hvs, hinv, hstep, hsame'⟩ := hagrees.countVote hhere hval'
    (hround.trans hsame.round.symm) hwf hlookup hcounted hnone hblock hbelow
  cases hvs.symm.trans hcount
  exact ⟨hinv, hstep.trans hmaj, hsame.trans hsame'⟩

theorem getVote_eq_none {index : ℤ} {key : Bytes} (h : voteSet.getVote index key = .ok none)
    {bv : BlockVotes} (hbv : voteSet.votesByBlock.lookup key = some bv) :
    bv.votes[index.toNat]? = some none := by
  unfold VoteSet.getVote at h
  split at h
  next => cases h
  next =>
    split at h
    next => cases Except.ok.inj h
    next =>
      rw [hbv] at h
      simp only at h
      split at h
      next => cases h
      next v hv => rw [hv, Except.ok.inj h]

/-- What has passed the checks of `AddVote`: a vote of the set's height, round and type, signed by
the validator at its index, whose vote with this key is not known. -/
structure Accepts (L : Libs) (voteSet : VoteSet) (vote : Vote) (val : Validator) : Prop where
  height : vote.height = voteSet.height
  round : ofUint64 vote.round = voteSet.round
  type_ : vote.type_ = voteSet.type_
  validator : voteSet.valSet.validators[vote.validatorIndex]? = some val
  signature : L.verifyBytes val.pubKey (L.signBytes voteSet.chainID (canonicalVote vote))
    vote.signature = true
  fresh : ∀ bv, voteSet.votesByBlock.lookup vote.blockID.key = some bv →
    bv.votes[vote.validatorIndex]? = some none

/-- **`AddVote` leaves the set alone, or adds a verified vote.** -/
theorem addVote_cases {L : Libs} (hindex : vote.validatorIndex < 2 ^ 64) {voteSet' : VoteSet}
    {added : Bool} {err : Option VoteError}
    (hadd : voteSet.addVote L vote = .ok (voteSet', added, err)) :
    voteSet' = voteSet ∧ added = false ∨ ∃ val conflicting, voteSet.Accepts L vote val ∧
      voteSet.addVerifiedVote vote vote.blockID.key val.votingPower =
        .ok (voteSet', added, conflicting) := by
  rcases addVote_eq_ok hadd with hsame |
    ⟨addr, val, conflicting, hstep, hget, hexisting, hverify, hverified⟩
  · exact .inl hsame
  -- an index that is found is not negative as an `int`, so it is the `uint64` itself
  obtain ⟨hcast, hval⟩ : (ofUint64 vote.validatorIndex).toNat = vote.validatorIndex ∧
      voteSet.valSet.validators[vote.validatorIndex]? = some val := by
    unfold ValidatorSet.getByIndex at hget
    split_ifs at hget with hneg
    have hcast : (ofUint64 vote.validatorIndex).toNat = vote.validatorIndex := by
      unfold ofUint64 at hneg ⊢
      rw [Int.bmod_def] at hneg ⊢
      omega
    refine ⟨hcast, ?_⟩
    rw [hcast] at hget
    split at hget
    next val' hval' => rw [hval', (Prod.mk.inj (Except.ok.inj hget)).2]
    next => cases hget
  exact .inr ⟨val, conflicting, ⟨hstep.1, hstep.2.1, hstep.2.2, hval, hverify,
    fun bv hbv => hcast ▸ getVote_eq_none hexisting hbv⟩, hverified⟩

/-- **`AddVote` keeps the invariant.** -/
theorem Inv.addVote {L : Libs} (h : voteSet.Inv) (hpos : 0 < voteSet.quorum)
    (htracks : voteSet.Tracks vote) {voteSet' : VoteSet} {added : Bool} {err : Option VoteError}
    (hadd : voteSet.addVote L vote = .ok (voteSet', added, err)) :
    voteSet'.Inv ∧ MajStep voteSet voteSet' ∧ SameHeader voteSet voteSet' := by
  rcases addVote_cases htracks.index hadd with ⟨rfl, -⟩ | ⟨val, conflicting, haccepts, hverified⟩
  · exact ⟨h, .of_eq rfl, SameHeader.refl _⟩
  · exact h.addVerifiedVote hpos haccepts.validator haccepts.round haccepts.fresh htracks hverified

/-- **`SetPeerMaj23` keeps the invariant.** -/
theorem Inv.setPeerMaj23 (h : voteSet.Inv) (hpos : 0 < voteSet.quorum) (peerID : String)
    (blockID : BlockID) :
    (voteSet.setPeerMaj23 peerID blockID).Inv ∧
      MajStep voteSet (voteSet.setPeerMaj23 peerID blockID) ∧
      SameHeader voteSet (voteSet.setPeerMaj23 peerID blockID) := by
  unfold VoteSet.setPeerMaj23
  split
  · exact ⟨h, .of_eq rfl, SameHeader.refl _⟩
  refine ⟨?_, .of_eq rfl, rfl, rfl, rfl, rfl, rfl⟩
  cases hlook : voteSet.votesByBlock.lookup blockID.key with
  | some bv =>
    have hbv := h.blocks _ bv hlook
    have hmarked : BlockVotes.Wf voteSet.valSet blockID.key { bv with peerMaj23 := true } :=
      ⟨hbv.length, hbv.bitArray, hbv.sum, hbv.key, hbv.blockID⟩
    exact Agrees.insert h hmarked (fun _ _ => False.elim)
      (fun i v hv => h.counted _ bv i v hlook hv)
      (fun bv₀ h₀ i v hv => Option.some.inj (h₀.symm.trans hlook) ▸ hv) rfl (fun _ _ hv => .inl hv)
      (fun hnone => ⟨hnone, h.below hnone _ bv hlook⟩) fun _ hb => .inl hb
  | none =>
    refine Agrees.insert h (newBlockVotes_wf voteSet.valSet _ true) (fun _ _ => False.elim)
      (fun i v hv => ?_) (fun bv₀ h₀ => absurd (hlook.symm.trans h₀) (Option.some_ne_none bv₀).symm)
      rfl (fun _ _ hv => .inl hv) (fun hnone => ⟨hnone, hpos⟩) fun _ hb => .inl hb
    simp [newBlockVotes, List.getElem?_replicate] at hv

/-- A call on a vote set. -/
inductive Call
  | addVote (vote : Vote)
  | setPeerMaj23 (peerID : String) (blockID : BlockID)

/-- The set after a call. -/
def call (L : Libs) (voteSet : VoteSet) : Call → Go VoteSet
  | .addVote vote => Prod.fst <$> voteSet.addVote L vote
  | .setPeerMaj23 peerID blockID => .ok (voteSet.setPeerMaj23 peerID blockID)

/-- The condition on the calls. -/
def Tracked (voteSet : VoteSet) : Call → Prop
  | .addVote vote => voteSet.Tracks vote
  | .setPeerMaj23 _ _ => True

theorem Inv.call {L : Libs} {voteSet' : VoteSet} {c : Call} (h : voteSet.Inv)
    (hpos : 0 < voteSet.quorum) (hc : voteSet.Tracked c) (hcall : voteSet.call L c = .ok voteSet') :
    voteSet'.Inv ∧ MajStep voteSet voteSet' ∧ SameHeader voteSet voteSet' := by
  cases c with
  | addVote vote =>
    obtain ⟨⟨vs, added, err⟩, hadd, rfl⟩ := Steps.map_eq_ok.1 hcall
    exact h.addVote hpos hc hadd
  | setPeerMaj23 peerID blockID =>
    cases hcall
    exact h.setPeerMaj23 hpos peerID blockID

/-- Four validators of power `1`. -/
def fourValidators : ValidatorSet where
  validators := [⟨[1], [1], 1, 0⟩, ⟨[2], [2], 1, 0⟩, ⟨[3], [3], 1, 0⟩, ⟨[4], [4], 1, 0⟩]

/-- The prevote of one of them in round `0`, for the block with the hash `[block]`. -/
def prevoteOf (index : ℕ) (block : UInt8) : Vote :=
  let key : Bytes := [UInt8.ofNat (index + 1)]
  let vote : Vote := ⟨key, index, 1, 0, voteTypePrevote, ⟨[block], ⟨1, [block]⟩⟩, [], []⟩
  { vote with signature := PlainLibs.sign key (plainLibs.signBytes "" (canonicalVote vote)) }

/-- The set of their prevotes. -/
def noVotes : VoteSet where
  chainID := ""
  height := 1
  round := 0
  type_ := voteTypePrevote
  valSet := fourValidators
  votesBitArray := [false, false, false, false]
  votes := [none, none, none, none]
  sum := 0
  maj23 := none
  votesByBlock := ∅
  peerMaj23s := ∅

/-- The fourth validator votes for another block, and then for the block of the others. -/
def lateVote : List Call :=
  [.addVote (prevoteOf 3 2), .addVote (prevoteOf 0 1), .addVote (prevoteOf 1 1),
    .addVote (prevoteOf 2 1), .addVote (prevoteOf 3 1)]

end VoteSet

end LigoChain
