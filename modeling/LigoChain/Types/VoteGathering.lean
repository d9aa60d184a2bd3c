/-
# A vote set on the way to its majority

`addVerifiedVote` in `chain/consensus/tendermint/types/vote_set.go` groups votes by
`BlockID.Key`, a text, and not by `BlockID`.  `Gathers` is what holds of every vote set without
a majority, after any calls to `AddVote` and `SetPeerMaj23` (`gathers_of_run`): conflicting votes,
the claims of peers and identifiers that share a key included.

`Gathers.addVote` says what the vote that brings the majority does.  `maj23` is its block, the
votes for this block in `votes` are then those of the entry of its key, and their power is the
power of the entry less that of the votes in it for other blocks (`Gathers.powerOf_votesFor`).
-/

import LigoChain.Types.VoteSetInvariant

namespace LigoChain

open GoInt

/-- A vote that Go's types allow: its index and its round are `uint64`. -/
structure Vote.Typed (vote : Vote) : Prop where
  index : vote.validatorIndex < 2 ^ 64
  round : vote.round < 2 ^ 64

theorem bitArray_ext {as bs : BitArray} (hlength : as.length = bs.length)
    (h : ∀ i : ℕ, as[i]? = some true ↔ bs[i]? = some true) : as = bs := by
  refine List.ext_getElem hlength fun i hi hi' => ?_
  have hbit := h i
  rw [List.getElem?_eq_getElem hi, List.getElem?_eq_getElem hi', Option.some_inj,
    Option.some_inj] at hbit
  exact Bool.eq_iff_iff.2 hbit

/-- The validators whose vote is for the block. -/
def votesFor (blockID : BlockID) (votes : List (Option Vote)) : BitArray :=
  votes.map fun vote => vote.any fun v => v.blockID = blockID

/-- The validators whose vote is for another block. -/
def votesAgainst (blockID : BlockID) (votes : List (Option Vote)) : BitArray :=
  votes.map fun vote => vote.any fun v => v.blockID ≠ blockID

theorem getElem?_votesFor {blockID : BlockID} {votes : List (Option Vote)} {i : ℕ} :
    (votesFor blockID votes)[i]? = some true ↔
      ∃ v, votes[i]? = some (some v) ∧ v.blockID = blockID := by
  rw [votesFor, List.getElem?_map]
  cases votes[i]? with
  | none => simp
  | some vote => cases vote <;> simp

/-- Who votes for a block and who votes for another is everyone that votes. -/
theorem ValidatorSet.powerOf_votesFor_add {valSet : ValidatorSet} (blockID : BlockID)
    {votes : List (Option Vote)} (hlength : votes.length = valSet.size) :
    valSet.powerOf (votesFor blockID votes) + valSet.powerOf (votesAgainst blockID votes) =
      valSet.powerOf (votes.map Option.isSome) := by
  have hlen : ∀ f : Option Vote → Bool, (votes.map f).length =
      (valSet.validators.map Validator.votingPower).length := fun f => by
    rw [List.length_map, List.length_map]
    exact hlength
  have hboth : List.zipWith and (votesFor blockID votes) (votesAgainst blockID votes) =
      List.replicate votes.length false := by
    unfold votesFor votesAgainst
    rw [List.zipWith_map, List.zipWith_self, List.eq_replicate_iff]
    refine ⟨by simp, fun b hb => ?_⟩
    obtain ⟨vote, -, rfl⟩ := List.mem_map.1 hb
    cases vote <;> simp
  have heither : List.zipWith or (votesFor blockID votes) (votesAgainst blockID votes) =
      votes.map Option.isSome := by
    unfold votesFor votesAgainst
    rw [List.zipWith_map, List.zipWith_self]
    refine List.map_congr_left fun vote _ => ?_
    cases vote with
    | none => rfl
    | some v => by_cases h : v.blockID = blockID <;> simp [h]
  have hsum := @Majority.weight_add_weight _ (votesFor blockID votes) (votesAgainst blockID votes)
    (hlen _) (hlen _)
  rw [hboth, heither, Majority.weight_replicate_false, zero_add] at hsum
  rw [powerOf_eq_weight, powerOf_eq_weight, powerOf_eq_weight, hsum]

namespace VoteSet

variable {L : Libs} {voteSet voteSet' : VoteSet} {vote : Vote} {val : Validator}

/-- The entry of `votesByBlock` with the key of a block, which is empty before its first vote. -/
def entry (voteSet : VoteSet) (blockID : BlockID) : BlockVotes :=
  (voteSet.votesByBlock.lookup blockID.key).getD (newBlockVotes false voteSet.valSet.size)

/-- The power of the votes that share the key of a block and are for another block. -/
def collidingPower (voteSet : VoteSet) (blockID : BlockID) : ℤ :=
  voteSet.valSet.powerOf (votesAgainst blockID (voteSet.entry blockID).votes)

/-- What the entry with the key of a vote has over the quorum once the vote is in it. -/
def surplus (voteSet : VoteSet) (vote : Vote) : ℤ :=
  (voteSet.entry vote.blockID).sum +
    ((voteSet.valSet.validators[vote.validatorIndex]?).map Validator.votingPower).getD 0 -
    voteSet.quorum

/-- A verified vote of the validator with an index. -/
structure Verified (L : Libs) (voteSet : VoteSet) (i : ℕ) (vote : Vote) : Prop where
  typed : vote.Typed
  index : vote.validatorIndex = i
  height : vote.height = voteSet.height
  round : ofUint64 vote.round = voteSet.round
  type_ : vote.type_ = voteSet.type_
  signature : ∃ val, voteSet.valSet.validators[i]? = some val ∧
    L.verifyBytes val.pubKey (L.signBytes voteSet.chainID (canonicalVote vote))
      vote.signature = true

theorem Accepts.verified (h : voteSet.Accepts L vote val) (htyped : vote.Typed) :
    voteSet.Verified L vote.validatorIndex vote :=
  ⟨htyped, rfl, h.height, h.round, h.type_, val, h.validator, h.signature⟩

theorem Verified.of_sameHeader (hsame : SameHeader voteSet voteSet') {i : ℕ}
    (h : voteSet.Verified L i vote) : voteSet'.Verified L i vote where
  typed := h.typed
  index := h.index
  height := h.height.trans hsame.height.symm
  round := h.round.trans hsame.round.symm
  type_ := h.type_.trans hsame.type_.symm
  signature := by
    rw [hsame.valSet, hsame.chainID]
    exact h.signature

/-- **What holds of a vote set without a majority**: the entries of `votesByBlock` hold verified
votes with their key and count them, and every vote is in the entry of its key. -/
structure Gathers (L : Libs) (voteSet : VoteSet) : Prop where
  length : voteSet.votes.length = voteSet.valSet.size
  maj23 : voteSet.maj23 = none
  blocks : ∀ key bv, voteSet.votesByBlock.lookup key = some bv → bv.Tallies voteSet.valSet key
  inBlock : ∀ (i : ℕ) v, voteSet.votes[i]? = some (some v) →
    ∃ bv, voteSet.votesByBlock.lookup v.blockID.key = some bv ∧ bv.votes[i]? = some (some v)
  verified : ∀ key bv (i : ℕ) v, voteSet.votesByBlock.lookup key = some bv →
    bv.votes[i]? = some (some v) → voteSet.Verified L i v

theorem newVoteSet_gathers {chainID : String} {height : ℕ} {round : ℤ} {type_ : ℕ}
    {valSet : ValidatorSet} (h : newVoteSet chainID height round type_ valSet = .ok voteSet) :
    voteSet.Gathers L := by
  obtain ⟨hinv, -, -⟩ := newVoteSet_inv h
  unfold newVoteSet at h
  split_ifs at h
  cases h
  exact ⟨hinv.length, rfl, fun key bv hk => by simp at hk, fun i v hv => hinv.inBlock i v hv id,
    fun key bv i v hk => by simp at hk⟩

theorem Gathers.entry (h : voteSet.Gathers L) (blockID : BlockID) :
    (voteSet.entry blockID).Tallies voteSet.valSet blockID.key := by
  unfold VoteSet.entry
  cases hlook : voteSet.votesByBlock.lookup blockID.key with
  | none => exact newBlockVotes_tallies _ _ _
  | some bv => exact h.blocks _ bv hlook

theorem Gathers.entry_verified (h : voteSet.Gathers L) {blockID : BlockID} {i : ℕ} {v : Vote}
    (hv : (voteSet.entry blockID).votes[i]? = some (some v)) : voteSet.Verified L i v := by
  unfold VoteSet.entry at hv
  cases hlook : voteSet.votesByBlock.lookup blockID.key with
  | none => simp [hlook, newBlockVotes, List.getElem?_replicate] at hv
  | some bv =>
    rw [hlook] at hv
    exact h.verified _ bv i v hlook hv

theorem Accepts.entry_fresh (h : voteSet.Accepts L vote val) :
    (voteSet.entry vote.blockID).votes[vote.validatorIndex]? = some none := by
  have hlt : vote.validatorIndex < voteSet.valSet.size :=
    (List.getElem?_eq_some_iff.1 h.validator).1
  unfold VoteSet.entry
  cases hlook : voteSet.votesByBlock.lookup vote.blockID.key with
  | none => simp [newBlockVotes, hlt]
  | some bv => exact h.fresh bv hlook

/-- The set that the vote is counted in: the vote is written to `votes`, or it conflicts with
another one and is not. -/
structure Placed (voteSet placed : VoteSet) (vote : Vote) : Prop where
  header : SameHeader voteSet placed
  maj23 : placed.maj23 = none
  votesByBlock : placed.votesByBlock = voteSet.votesByBlock
  votes : placed.votes = voteSet.votes ∨
    placed.votes = voteSet.votes.set vote.validatorIndex (some vote)

/-- `addVerifiedVote` before the majority: the vote is dropped, or it is counted in the entry of
its key. -/
theorem addVerifiedVote_open (hmaj : voteSet.maj23 = none) {power : ℤ} {added : Bool}
    {conflicting : Option Vote}
    (h : voteSet.addVerifiedVote vote vote.blockID.key power = .ok (voteSet', added, conflicting)) :
    voteSet' = voteSet ∨ ∃ placed, voteSet.Placed placed vote ∧
      placed.countVote vote vote.blockID.key power (voteSet.entry vote.blockID) =
        .ok (voteSet', added) := by
  obtain ⟨placed, hplace, hcases⟩ := addVerifiedVote_cases h
  have hkey : voteSet.maj23.map BlockID.key ≠ some vote.blockID.key := by simp [hmaj]
  rcases placeVote_cases hplace with ⟨-, rfl, hplaced⟩ | ⟨existing, -, -, rfl, hplaced | ⟨hkey', -⟩⟩
  · refine .inr ⟨placed, ?_, ?_⟩
    · subst hplaced
      exact ⟨⟨rfl, rfl, rfl, rfl, rfl⟩, hmaj, rfl, .inr rfl⟩
    · rcases hcases with ⟨-, hconf, -⟩ | ⟨bv, hcount, hbv | ⟨hnone, -, rfl⟩⟩
      · cases hconf
      · subst hplaced
        rw [VoteSet.entry, show voteSet.votesByBlock.lookup _ = some bv from hbv]
        exact hcount
      · subst hplaced
        rw [VoteSet.entry, show voteSet.votesByBlock.lookup _ = none from hnone]
        exact hcount
  · subst hplaced
    rcases hcases with ⟨rfl, -⟩ | ⟨bv, hcount, hbv | ⟨-, hconf, -⟩⟩
    · exact .inl rfl
    · refine .inr ⟨placed, ⟨SameHeader.refl _, hmaj, rfl, .inl rfl⟩, ?_⟩
      rw [VoteSet.entry, hbv]
      exact hcount
    · cases hconf
  · exact absurd hkey' hkey

/-- The votes of the entry with the vote. -/
def entryWith (voteSet : VoteSet) (vote : Vote) : List (Option Vote) :=
  (voteSet.entry vote.blockID).votes.set vote.validatorIndex (some vote)

/-- **The vote that brings the majority**: its block is `maj23`, and of the votes for that block
`votes` has exactly those of the entry. -/
structure Crosses (voteSet : VoteSet) (vote : Vote) (val : Validator) (voteSet' : VoteSet) :
    Prop where
  header : SameHeader voteSet voteSet'
  maj23 : voteSet'.maj23 = some vote.blockID
  length : voteSet'.votes.length = voteSet.valSet.size
  reached : voteSet.quorum ≤ (voteSet.entry vote.blockID).sum + val.votingPower
  votes : ∀ (i : ℕ) v, v.blockID = vote.blockID →
    (voteSet'.votes[i]? = some (some v) ↔ (voteSet.entryWith vote)[i]? = some (some v))

theorem Placed.length (h : voteSet.Placed voteSet' vote) :
    voteSet'.votes.length = voteSet.votes.length := by
  rcases h.votes with hvotes | hvotes <;> simp [hvotes]

theorem Placed.getElem? (h : voteSet.Placed voteSet' vote) {i : ℕ} {v : Vote}
    (hv : voteSet'.votes[i]? = some (some v)) :
    voteSet.votes[i]? = some (some v) ∨ i = vote.validatorIndex ∧ v = vote := by
  rcases h.votes with hvotes | hvotes
  · exact .inl (hvotes ▸ hv)
  · rw [hvotes, List.getElem?_set] at hv
    split_ifs at hv with hi hlt
    · exact .inr ⟨hi.symm, (Option.some.inj (Option.some.inj hv)).symm⟩
    · exact .inl hv

theorem Accepts.getElem?_entryWith (h : voteSet.Accepts L vote val) (i : ℕ) (v : Vote) :
    (voteSet.entryWith vote)[i]? = some (some v) ↔
      i = vote.validatorIndex ∧ v = vote ∨
        (voteSet.entry vote.blockID).votes[i]? = some (some v) := by
  have hfresh := h.entry_fresh
  have hlt := (List.getElem?_eq_some_iff.1 hfresh).1
  unfold entryWith
  rw [List.getElem?_set]
  split_ifs with hi
  · subst hi
    simp [hfresh, eq_comm]
  · simp [Ne.symm hi]

/-- Every vote in `votes` is in the entry that it goes to. -/
theorem Gathers.placed (h : voteSet.Gathers L) (haccepts : voteSet.Accepts L vote val)
    {placed : VoteSet} (hplaced : voteSet.Placed placed vote) {i : ℕ} {v : Vote}
    (hv : placed.votes[i]? = some (some v)) (hkey : v.blockID.key = vote.blockID.key) :
    (voteSet.entryWith vote)[i]? = some (some v) := by
  rw [haccepts.getElem?_entryWith]
  rcases hplaced.getElem? hv with hv | hnew
  · obtain ⟨bv, hlook, hbv⟩ := h.inBlock i v hv
    rw [hkey] at hlook
    refine .inr ?_
    rw [VoteSet.entry, hlook]
    exact hbv
  · exact .inl hnew

theorem Gathers.entryWith_verified (h : voteSet.Gathers L) (haccepts : voteSet.Accepts L vote val)
    (htyped : vote.Typed) {i : ℕ} {v : Vote}
    (hv : (voteSet.entryWith vote)[i]? = some (some v)) : voteSet.Verified L i v := by
  rcases (haccepts.getElem?_entryWith i v).1 hv with ⟨rfl, rfl⟩ | hv
  · exact haccepts.verified htyped
  · exact h.entry_verified hv

theorem Crosses.verified (h : voteSet.Crosses vote val voteSet') (hgathers : voteSet.Gathers L)
    (haccepts : voteSet.Accepts L vote val) (htyped : vote.Typed) (i : ℕ) (v : Vote)
    (hv : voteSet'.votes[i]? = some (some v)) (hblock : v.blockID = vote.blockID) :
    voteSet.Verified L i v :=
  hgathers.entryWith_verified haccepts htyped ((h.votes i v hblock).1 hv)

theorem Crosses.votesFor_eq (h : voteSet.Crosses vote val voteSet') (hgathers : voteSet.Gathers L) :
    votesFor vote.blockID voteSet'.votes = votesFor vote.blockID (voteSet.entryWith vote) := by
  refine bitArray_ext ?_ fun i => ?_
  · unfold votesFor entryWith
    rw [List.length_map, List.length_map, List.length_set, h.length,
      (hgathers.entry vote.blockID).length]
  · rw [getElem?_votesFor, getElem?_votesFor]
    exact exists_congr fun v => and_congr_left fun hblock => h.votes i v hblock

/-- The entry of a key is put in its place, and has the votes with its key. -/
theorem Gathers.insert (h : voteSet.Gathers L) {key : Bytes} {bv : BlockVotes}
    (hbv : bv.Tallies voteSet.valSet key) (hheader : SameHeader voteSet voteSet')
    (hmaj : voteSet'.maj23 = none) (hlength : voteSet'.votes.length = voteSet.votes.length)
    (hblocks : voteSet'.votesByBlock = voteSet.votesByBlock.insert key bv)
    (hin : ∀ (i : ℕ) v, voteSet'.votes[i]? = some (some v) →
      if v.blockID.key = key then bv.votes[i]? = some (some v)
      else voteSet.votes[i]? = some (some v))
    (hverified : ∀ (i : ℕ) v, bv.votes[i]? = some (some v) → voteSet.Verified L i v) :
    voteSet'.Gathers L := by
  have hlookup : ∀ k, voteSet'.votesByBlock.lookup k =
      if k = key then some bv else voteSet.votesByBlock.lookup k := fun k => by
    rw [hblocks, GoMap.lookup_insert_ite]
  refine ⟨?_, hmaj, fun k bv' hk => ?_, fun i v hv => ?_, fun k bv' i v hk hv => ?_⟩
  · rw [hlength, h.length, hheader.valSet]
  · rw [hheader.valSet]
    rw [hlookup] at hk
    split_ifs at hk with hkey
    · exact Option.some.inj hk ▸ hkey ▸ hbv
    · exact h.blocks k bv' hk
  · have hv := hin i v hv
    rw [hlookup]
    split_ifs at hv ⊢ with hkey
    · exact ⟨bv, rfl, hv⟩
    · exact h.inBlock i v hv
  · refine Verified.of_sameHeader hheader ?_
    rw [hlookup] at hk
    split_ifs at hk with hkey
    · cases hk
      exact hverified i v hv
    · exact h.verified k bv' i v hk hv

/-- **One `AddVote` before the majority**: there still is none, or the vote brings it. -/
theorem Gathers.addVote (h : voteSet.Gathers L) (htyped : vote.Typed) {added : Bool}
    {err : Option VoteError} (hadd : voteSet.addVote L vote = .ok (voteSet', added, err)) :
    voteSet'.Gathers L ∨ ∃ val, voteSet.Accepts L vote val ∧ voteSet.Crosses vote val voteSet' := by
  rcases addVote_cases htyped.index hadd with ⟨rfl, -⟩ | ⟨val, conflicting, haccepts, hverified⟩
  · exact .inl h
  rcases addVerifiedVote_open h.maj23 hverified with rfl | ⟨placed, hplaced, hcount⟩
  · exact .inl h
  have hentry := h.entry vote.blockID
  obtain ⟨bv, hbv, htallies, hvotes, hsum⟩ :=
    hentry.addVerifiedVote haccepts.entry_fresh haccepts.validator
  obtain ⟨c, n, htally⟩ := ValidatorSet.exists_talliedVotingPower haccepts.validator
    (show voteSet.valSet.size = (voteSet.entry vote.blockID).bitArray.length by
      rw [hentry.bitArray, List.length_map, hentry.length])
  have hquorum : loose23MajorThreshold placed.valSet.totalPower (ofUint64 vote.round) =
      voteSet.quorum := by
    rw [hplaced.header.valSet, haccepts.round]
    rfl
  unfold VoteSet.countVote at hcount
  rw [← hplaced.header.valSet] at htally
  simp only [htally, hbv, hquorum, bind, Except.bind] at hcount
  split_ifs at hcount with hcross
  · cases hcount
    have hlength : bv.votes.length = placed.votes.length := by
      rw [htallies.length, hplaced.length, h.length]
    refine .inr ⟨val, haccepts, hplaced.header.trans ⟨rfl, rfl, rfl, rfl, rfl⟩, rfl, ?_, ?_,
      fun i v hblock => ?_⟩
    · show (copyVotes placed.votes bv.votes).length = _
      rw [copyVotes, List.length_zipWith, hlength, min_self, hplaced.length, h.length]
    · exact hsum ▸ hcross.2.1
    · -- a vote for the block that `votes` keeps is in the entry as well
      refine (getElem?_copyVotes hlength i v).trans ?_
      rw [hvotes]
      refine ⟨fun hv => hv.elim id fun hv => ?_, .inl⟩
      exact h.placed haccepts hplaced hv.2 (congrArg BlockID.key hblock)
  · cases hcount
    refine .inl (h.insert htallies (hplaced.header.trans ⟨rfl, rfl, rfl, rfl, rfl⟩) hplaced.maj23
      hplaced.length (by rw [← hplaced.votesByBlock]) (fun i v hv => ?_) fun i v hv =>
        h.entryWith_verified haccepts htyped (by rw [entryWith, ← hvotes]; exact hv))
    split_ifs with hkey
    · rw [hvotes]
      exact h.placed haccepts hplaced hv hkey
    · exact (hplaced.getElem? hv).resolve_right fun hnew => hkey (hnew.2 ▸ rfl)

theorem sameHeader_blocks (voteSet : VoteSet) (peerMaj23s : GoMap String BlockID)
    (votesByBlock : GoMap Bytes BlockVotes) :
    SameHeader voteSet
      { voteSet with peerMaj23s := peerMaj23s, votesByBlock := votesByBlock } :=
  ⟨rfl, rfl, rfl, rfl, rfl⟩

/-- An entry with the votes that the block has is put in its place. -/
theorem Gathers.replace (h : voteSet.Gathers L) {blockID : BlockID} {bv : BlockVotes}
    (htallies : bv.Tallies voteSet.valSet blockID.key)
    (hvotes : bv.votes = (voteSet.entry blockID).votes) (peerMaj23s : GoMap String BlockID) :
    Gathers L { voteSet with
      peerMaj23s := peerMaj23s
      votesByBlock := voteSet.votesByBlock.insert blockID.key bv } := by
  refine h.insert htallies (voteSet.sameHeader_blocks _ _) h.maj23 rfl rfl (fun i v hv => ?_)
    fun i v hv => h.entry_verified (hvotes ▸ hv)
  split_ifs with hkey
  · obtain ⟨bv', hlook, hv'⟩ := h.inBlock i v hv
    rw [hvotes, VoteSet.entry, ← hkey, hlook]
    exact hv'
  · exact hv

/-- **`SetPeerMaj23`** adds no vote. -/
theorem Gathers.setPeerMaj23 (h : voteSet.Gathers L) (peerID : String) (blockID : BlockID) :
    (voteSet.setPeerMaj23 peerID blockID).Gathers L := by
  unfold VoteSet.setPeerMaj23
  split
  · exact h
  cases hlook : voteSet.votesByBlock.lookup blockID.key with
  | some bv =>
    have hbv := h.blocks _ bv hlook
    exact @Gathers.replace _ _ h blockID { bv with peerMaj23 := true }
      ⟨hbv.length, hbv.bitArray, hbv.sum, hbv.key⟩ (by rw [VoteSet.entry, hlook]; rfl) _
  | none =>
    exact h.replace (newBlockVotes_tallies _ _ true) (by rw [VoteSet.entry, hlook]; rfl) _

/-- The votes of a call are ones that Go's types allow. -/
def CallTyped (_ : VoteSet) : Call → Prop
  | .addVote vote => vote.Typed
  | .setPeerMaj23 _ _ => True

theorem addVerifiedVote_maj23 {key : Bytes} {power : ℤ} {added : Bool} {conflicting : Option Vote}
    (h : voteSet.addVerifiedVote vote key power = .ok (voteSet', added, conflicting))
    (hnone : voteSet'.maj23 = none) : voteSet.maj23 = none := by
  obtain ⟨placed, hplace, hcases⟩ := addVerifiedVote_cases h
  have hplaced : placed.maj23 = voteSet.maj23 := by
    rcases placeVote_cases hplace with ⟨-, -, rfl⟩ | ⟨existing, -, -, -, rfl | ⟨-, rfl⟩⟩ <;> rfl
  rw [← hplaced]
  rcases hcases with ⟨rfl, -⟩ | ⟨bv, hcount, -⟩
  · exact hnone
  · rcases countVote_cases hcount with rfl | ⟨bv', maj23, votes, -, rfl, ⟨rfl, -⟩ | ⟨hsome, -⟩⟩
    · exact hnone
    · exact hnone
    · rw [show maj23 = none from hnone] at hsome
      cases hsome

theorem newVoteSet_header {chainID : String} {height : ℕ} {round : ℤ} {type_ : ℕ}
    {valSet : ValidatorSet} (h : newVoteSet chainID height round type_ valSet = .ok voteSet) :
    voteSet.chainID = chainID ∧ voteSet.height = height ∧ voteSet.round = round ∧
      voteSet.type_ = type_ ∧ voteSet.valSet = valSet := by
  unfold newVoteSet at h
  split_ifs at h
  cases h
  exact ⟨rfl, rfl, rfl, rfl, rfl⟩

theorem sameHeader_of_run {start : VoteSet} {calls : List Call}
    (hrun : calls.foldlM (call L) start = .ok voteSet) : SameHeader start voteSet := by
  refine Steps.foldlM_invariant (P := SameHeader start) (fun vs c vs' h hcall => ?_)
    (SameHeader.refl start) hrun
  cases c with
  | addVote vote =>
    obtain ⟨⟨vs₁, added, err⟩, hadd, rfl⟩ := Steps.map_eq_ok.1 hcall
    have hall : vs.AllVotes fun _ => True := ⟨fun _ _ => trivial, fun _ _ _ _ _ => trivial⟩
    exact h.trans (addVote_spec hadd hall fun _ _ _ => trivial).2
  | setPeerMaj23 peerID blockID =>
    cases hcall
    unfold VoteSet.setPeerMaj23
    split
    · exact h
    · exact h.trans (vs.sameHeader_blocks _ _)

/-- **One call**: a vote set without a majority gathers votes. -/
theorem gathers_call {c : Call} (hgathers : voteSet.maj23 = none → voteSet.Gathers L)
    (htyped : voteSet.CallTyped c) (hcall : voteSet.call L c = .ok voteSet')
    (hnone : voteSet'.maj23 = none) : voteSet'.Gathers L := by
  cases c with
  | addVote vote =>
    obtain ⟨⟨vs, added, err⟩, hadd, rfl⟩ := Steps.map_eq_ok.1 hcall
    have hopen : voteSet.maj23 = none := by
      rcases addVote_cases htyped.index hadd with ⟨rfl, -⟩ | ⟨val, conflicting, -, hverified⟩
      · exact hnone
      · exact addVerifiedVote_maj23 hverified hnone
    rcases (hgathers hopen).addVote htyped hadd with h | ⟨val, -, hcrosses⟩
    · exact h
    · exact absurd (hcrosses.maj23.symm.trans hnone) (Option.some_ne_none _)
  | setPeerMaj23 peerID blockID =>
    cases hcall
    refine (hgathers ?_).setPeerMaj23 peerID blockID
    unfold VoteSet.setPeerMaj23 at hnone
    split at hnone <;> exact hnone

/-- **After every sequence of calls** a vote set without a majority gathers votes. -/
theorem gathers_of_run {chainID : String} {height : ℕ} {round : ℤ} {type_ : ℕ}
    {valSet : ValidatorSet} {start : VoteSet}
    (hnew : newVoteSet chainID height round type_ valSet = .ok start) {calls : List Call}
    (htyped : Steps.RunMeets (call L) CallTyped start calls)
    (hrun : calls.foldlM (call L) start = .ok voteSet) (hnone : voteSet.maj23 = none) :
    voteSet.Gathers L :=
  Steps.RunMeets.invariant (I := fun vs => vs.maj23 = none → vs.Gathers L)
    (fun _ _ _ hc hcall hI hnone => gathers_call hI hc hcall hnone) htyped hrun
    (fun _ => newVoteSet_gathers hnew) hnone

/-- A validator has voted for the block of a vote: with this vote, or with a verified one that
was added before. -/
def VotedFor (L : Libs) (voteSet : VoteSet) (vote : Vote) (i : ℕ) : Prop :=
  ∃ v, v.blockID = vote.blockID ∧ voteSet.Verified L i v ∧
    (v = vote ∨ ∃ bv, voteSet.votesByBlock.lookup vote.blockID.key = some bv ∧ some v ∈ bv.votes)

/-- The bits of the votes for the block name those who voted for it. -/
theorem Gathers.getElem?_votesFor_iff (h : voteSet.Gathers L)
    (haccepts : voteSet.Accepts L vote val) (htyped : vote.Typed) (i : ℕ) :
    (votesFor vote.blockID (voteSet.entryWith vote))[i]? = some true ↔
      voteSet.VotedFor L vote i := by
  rw [getElem?_votesFor]
  refine exists_congr fun v => ?_
  rw [haccepts.getElem?_entryWith]
  constructor
  · rintro ⟨⟨rfl, rfl⟩ | hv, hblock⟩
    · exact ⟨hblock, haccepts.verified htyped, .inl rfl⟩
    · refine ⟨hblock, h.entry_verified hv, .inr ?_⟩
      unfold VoteSet.entry at hv
      cases hlook : voteSet.votesByBlock.lookup vote.blockID.key with
      | none => simp [hlook, newBlockVotes, List.getElem?_replicate] at hv
      | some bv =>
        rw [hlook] at hv
        exact ⟨bv, rfl, List.mem_of_getElem? hv⟩
  · rintro ⟨hblock, hverified, rfl | ⟨bv, hlook, hmem⟩⟩
    · exact ⟨.inl ⟨hverified.index.symm, rfl⟩, hblock⟩
    · -- a vote stands at the index of its validator
      obtain ⟨j, hj⟩ := List.mem_iff_getElem?.1 hmem
      have hindex := (h.verified _ bv j v hlook hj).index
      rw [hverified.index] at hindex
      refine ⟨.inr ?_, hblock⟩
      rw [VoteSet.entry, hlook, hindex]
      exact hj

/-- **The power of the votes for the block of the majority**: that of the entry with the vote,
less the power of the votes that only share the key. -/
theorem Gathers.powerOf_votesFor (h : voteSet.Gathers L) (haccepts : voteSet.Accepts L vote val) :
    voteSet.valSet.powerOf (votesFor vote.blockID (voteSet.entryWith vote)) =
      voteSet.quorum + voteSet.surplus vote - voteSet.collidingPower vote.blockID := by
  have hentry := h.entry vote.blockID
  have hset : votesFor vote.blockID (voteSet.entryWith vote) =
      (votesFor vote.blockID (voteSet.entry vote.blockID).votes).set vote.validatorIndex true := by
    unfold votesFor entryWith
    rw [List.map_set]
    simp
  have hbit : (votesFor vote.blockID (voteSet.entry vote.blockID).votes)[vote.validatorIndex]? =
      some false := by
    rw [votesFor, List.getElem?_map, haccepts.entry_fresh]
    rfl
  have hsplit := ValidatorSet.powerOf_votesFor_add vote.blockID hentry.length
  rw [hset, ValidatorSet.powerOf_set haccepts.validator hbit, surplus, haccepts.validator,
    hentry.sum, hentry.bitArray, ← hsplit, collidingPower, Option.map_some, Option.getD_some]
  ring

end VoteSet

end LigoChain
