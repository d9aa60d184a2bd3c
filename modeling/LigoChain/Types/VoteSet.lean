/-
# Vote sets

`VoteSet` in `chain/consensus/tendermint/types/vote_set.go`: the votes of one
height, round and type, as the proposer of the round collects them.  `votes` holds
one vote a validator, `votesByBlock` the votes for each block that is tracked, and
`maj23` the first block whose votes reach the quorum.

`addVote_spec` is the only thing later modules need of this code: a vote set
holds nothing but votes that were added for its own height, round and type.
-/

import LigoChain.Types.Block
import LigoChain.Types.ValidatorSet
import Mathlib.Data.List.AList

namespace LigoChain

open GoInt

/-- A Go map. -/
abbrev GoMap (κ ν : Type) := AList fun _ : κ => ν

theorem GoMap.lookup_insert_ite {κ ν : Type} [DecidableEq κ] (m : GoMap κ ν) (key k : κ)
    (value : ν) : (m.insert key value).lookup k = if k = key then some value else m.lookup k := by
  split_ifs with hk
  · subst hk
    exact AList.lookup_insert m
  · exact AList.lookup_insert_ne hk

theorem GoMap.lookup_erase_ite {κ ν : Type} [DecidableEq κ] (m : GoMap κ ν) (key k : κ) :
    (m.erase key).lookup k = if k = key then none else m.lookup k := by
  split_ifs with hk
  · subst hk
    exact AList.lookup_erase k m
  · exact AList.lookup_erase_ne hk

/-- `width` bytes of a number, the most significant first. -/
def bigEndian : ℕ → ℕ → Bytes
  | 0, _ => []
  | width + 1, n => bigEndian width (n / 256) ++ [UInt8.ofNat n]

/-- The number of bytes that `wire` writes for a length. -/
def byteSize (n : ℕ) : ℕ := ((List.range 9).find? fun k => n < 256 ^ k).getD 8

/-- `wire.BinaryBytes` of a `PartSetHeader`: eight bytes of total, then the hash with its
length in front. -/
def PartSetHeader.binaryBytes (psh : PartSetHeader) : Bytes :=
  bigEndian 8 psh.total ++
    (UInt8.ofNat (byteSize psh.hash.length) :: bigEndian (byteSize psh.hash.length) psh.hash.length)
    ++ psh.hash

/-- `BlockID.Key`. -/
def BlockID.key (blockID : BlockID) : Bytes := blockID.hash ++ blockID.partsHeader.binaryBytes

/-- `blockVotes`. -/
structure BlockVotes where
  peerMaj23 : Bool
  bitArray : BitArray
  votes : List (Option Vote)
  sum : ℤ

/-- `newBlockVotes`. -/
def newBlockVotes (peerMaj23 : Bool) (numValidators : ℕ) : BlockVotes where
  peerMaj23 := peerMaj23
  bitArray := List.replicate numValidators false
  votes := List.replicate numValidators none
  sum := 0

/-- `blockVotes.addVerifiedVote`. -/
def BlockVotes.addVerifiedVote (bv : BlockVotes) (vote : Vote) (votingPower : ℤ) :
    Go BlockVotes :=
  match bv.votes[vote.validatorIndex]? with
  | none => .error .index
  | some (some _) => .ok bv
  | some none => .ok
    { bv with
      bitArray := bv.bitArray.set vote.validatorIndex true
      votes := bv.votes.set vote.validatorIndex (some vote)
      sum := bv.sum + votingPower }

/-- `VoteSet`. -/
structure VoteSet where
  chainID : String
  height : ℕ
  round : ℤ
  type_ : ℕ
  valSet : ValidatorSet
  votesBitArray : BitArray
  votes : List (Option Vote)
  sum : ℤ
  maj23 : Option BlockID
  votesByBlock : GoMap Bytes BlockVotes
  peerMaj23s : GoMap String BlockID

/-- The errors of `AddVote`. -/
inductive VoteError
  | unexpectedStep
  | invalidValidatorAddress
  | invalidSignature
  | conflictingVotes (voteA voteB : Vote)
  deriving DecidableEq, Repr

/-- `NewVoteSet`. -/
def newVoteSet (chainID : String) (height : ℕ) (round : ℤ) (type_ : ℕ) (valSet : ValidatorSet) :
    Go VoteSet :=
  if height = 0 then
    .error (.sanity "Cannot make VoteSet for height == 0, doesn't make sense.")
  else .ok
    { chainID := chainID
      height := height
      round := round
      type_ := type_
      valSet := valSet
      votesBitArray := List.replicate valSet.size false
      votes := List.replicate valSet.size none
      sum := 0
      maj23 := none
      votesByBlock := ∅
      peerMaj23s := ∅ }

namespace VoteSet

/-- `getVote`: the vote of a validator for a block, from `votes` or from `votesByBlock`. -/
def getVote (voteSet : VoteSet) (valIndex : ℤ) (blockKey : Bytes) : Go (Option Vote) :=
  match if valIndex < 0 then none else voteSet.votes[valIndex.toNat]? with
  | none => .error .index
  | some existing =>
    match existing.filter fun v => v.blockID.key == blockKey with
    | some v => .ok (some v)
    | none =>
      match voteSet.votesByBlock.lookup blockKey with
      | none => .ok none
      | some bv =>
        match bv.votes[valIndex.toNat]? with
        | none => .error .index
        | some v => .ok v

/-- The first part of `addVerifiedVote`: the entry of the validator in `votes`, and the
conflicting vote if it has one already. -/
def placeVote (voteSet : VoteSet) (vote : Vote) (blockKey : Bytes) (votingPower : ℤ) :
    Go (VoteSet × Option Vote) :=
  match voteSet.votes[vote.validatorIndex]? with
  | none => .error .index
  | some (some existing) =>
    if existing.blockID = vote.blockID then
      .error (.sanity "addVerifiedVote does not expect duplicate votes")
    else if voteSet.maj23.map BlockID.key = some blockKey then
      .ok ({ voteSet with
              votes := voteSet.votes.set vote.validatorIndex (some vote)
              votesBitArray := voteSet.votesBitArray.set vote.validatorIndex true }, some existing)
    else .ok (voteSet, some existing)
  | some none =>
    .ok ({ voteSet with
            votes := voteSet.votes.set vote.validatorIndex (some vote)
            votesBitArray := voteSet.votesBitArray.set vote.validatorIndex true
            sum := voteSet.sum + votingPower }, none)

/-- The votes of a block, copied over `votes`. -/
def copyVotes (votes blockVotes : List (Option Vote)) : List (Option Vote) :=
  List.zipWith (fun v w => if w.isSome then w else v) votes blockVotes

/-- The second part of `addVerifiedVote`: the entry in `votesByBlock`, and the quorum. -/
def countVote (voteSet : VoteSet) (vote : Vote) (blockKey : Bytes) (votingPower : ℤ)
    (bv : BlockVotes) : Go (VoteSet × Bool) :=
  match voteSet.valSet.talliedVotingPower (some bv.bitArray) with
  | .error _ =>
    .ok ({ voteSet with votesByBlock := voteSet.votesByBlock.insert blockKey bv }, false)
  | .ok (_, _, totalVotes) => do
    let quorum := loose23MajorThreshold totalVotes (ofUint64 vote.round)
    let bv' ← bv.addVerifiedVote vote votingPower
    let counted := { voteSet with votesByBlock := voteSet.votesByBlock.insert blockKey bv' }
    if bv.sum < quorum ∧ quorum ≤ bv'.sum ∧ voteSet.maj23 = none then
      .ok ({ counted with
              maj23 := some vote.blockID
              votes := copyVotes voteSet.votes bv'.votes }, true)
    else .ok (counted, true)

/-- `addVerifiedVote`: whether the vote was added, and the conflicting vote. -/
def addVerifiedVote (voteSet : VoteSet) (vote : Vote) (blockKey : Bytes) (votingPower : ℤ) :
    Go (VoteSet × Bool × Option Vote) := do
  let (placed, conflicting) ← voteSet.placeVote vote blockKey votingPower
  match placed.votesByBlock.lookup blockKey with
  | some bv =>
    if conflicting.isSome && !bv.peerMaj23 then .ok (placed, false, conflicting)
    else do
      let (counted, added) ← placed.countVote vote blockKey votingPower bv
      .ok (counted, added, conflicting)
  | none =>
    if conflicting.isSome then .ok (placed, false, conflicting)
    else do
      let (counted, added) ←
        placed.countVote vote blockKey votingPower (newBlockVotes false voteSet.valSet.size)
      .ok (counted, added, conflicting)

/-- `AddVote`. -/
def addVote (L : Libs) (voteSet : VoteSet) (vote : Vote) :
    Go (VoteSet × Bool × Option VoteError) :=
  if vote.validatorAddress.isEmpty then
    .error (.sanity "Validator index or address was not set in vote.")
  else if vote.height ≠ voteSet.height ∨ ofUint64 vote.round ≠ voteSet.round ∨
      vote.type_ ≠ voteSet.type_ then
    .ok (voteSet, false, some .unexpectedStep)
  else do
    let (lookupAddr, val) ← voteSet.valSet.getByIndex (ofUint64 vote.validatorIndex)
    if vote.validatorAddress ≠ lookupAddr then
      .ok (voteSet, false, some .invalidValidatorAddress)
    else do
      let existing ← voteSet.getVote (ofUint64 vote.validatorIndex) vote.blockID.key
      match existing with
      | some existing =>
        if existing.signature = vote.signature then .ok (voteSet, false, none)
        else .ok (voteSet, false, some .invalidSignature)
      | none =>
        if !L.verifyBytes val.pubKey (L.signBytes voteSet.chainID (canonicalVote vote))
            vote.signature then
          .ok (voteSet, false, some .invalidSignature)
        else do
          let (voteSet', added, conflicting) ←
            voteSet.addVerifiedVote vote vote.blockID.key val.votingPower
          match conflicting with
          | some conflicting => .ok (voteSet', added, some (.conflictingVotes conflicting vote))
          | none =>
            if !added then .error (.sanity "Expected to add non-conflicting vote")
            else .ok (voteSet', added, none)

/-- `SetPeerMaj23`. -/
def setPeerMaj23 (voteSet : VoteSet) (peerID : String) (blockID : BlockID) : VoteSet :=
  match voteSet.peerMaj23s.lookup peerID with
  | some _ => voteSet
  | none =>
    let bv := match voteSet.votesByBlock.lookup blockID.key with
      | some bv => { bv with peerMaj23 := true }
      | none => newBlockVotes true voteSet.valSet.size
    { voteSet with
      peerMaj23s := voteSet.peerMaj23s.insert peerID blockID
      votesByBlock := voteSet.votesByBlock.insert blockID.key bv }

end VoteSet

/-! ## What a vote set holds -/

namespace VoteSet

/-- Every vote in the set has the property. -/
structure AllVotes (P : Vote → Prop) (voteSet : VoteSet) : Prop where
  votes : ∀ v, some v ∈ voteSet.votes → P v
  byBlock : ∀ key bv, voteSet.votesByBlock.lookup key = some bv → ∀ v, some v ∈ bv.votes → P v

/-- What identifies a vote set does not change. -/
structure SameHeader (voteSet voteSet' : VoteSet) : Prop where
  chainID : voteSet'.chainID = voteSet.chainID
  height : voteSet'.height = voteSet.height
  round : voteSet'.round = voteSet.round
  type_ : voteSet'.type_ = voteSet.type_
  valSet : voteSet'.valSet = voteSet.valSet

theorem SameHeader.refl (voteSet : VoteSet) : SameHeader voteSet voteSet := ⟨rfl, rfl, rfl, rfl, rfl⟩

theorem SameHeader.trans {a b c : VoteSet} (h : SameHeader a b) (h' : SameHeader b c) :
    SameHeader a c :=
  ⟨h'.chainID.trans h.chainID, h'.height.trans h.height, h'.round.trans h.round,
    h'.type_.trans h.type_, h'.valSet.trans h.valSet⟩

variable {P : Vote → Prop} {voteSet voteSet' : VoteSet} {vote : Vote}

theorem AllVotes.mono {Q : Vote → Prop} (h : voteSet.AllVotes P) (hPQ : ∀ v, P v → Q v) :
    voteSet.AllVotes Q :=
  ⟨fun v hv => hPQ v (h.votes v hv), fun k bv hk v hv => hPQ v (h.byBlock k bv hk v hv)⟩

theorem mem_set_some {l : List (Option Vote)} {i : ℕ} {v w : Vote}
    (h : some v ∈ l.set i (some w)) : v = w ∨ some v ∈ l := by
  rcases List.mem_or_eq_of_mem_set h with h | h
  · exact Or.inr h
  · exact Or.inl (Option.some.inj h)

theorem mem_copyVotes {a b : List (Option Vote)} {v : Vote} (h : some v ∈ copyVotes a b) :
    some v ∈ a ∨ some v ∈ b := by
  unfold copyVotes at h
  rw [← List.map_uncurry_zip_eq_zipWith, List.mem_map] at h
  obtain ⟨⟨x, y⟩, hmem, heq⟩ := h
  obtain ⟨hx, hy⟩ := List.of_mem_zip hmem
  simp only [Function.uncurry_apply_pair] at heq
  split_ifs at heq
  · exact Or.inr (heq ▸ hy)
  · exact Or.inl (heq ▸ hx)

theorem blockVotes_addVerifiedVote {bv bv' : BlockVotes} {power : ℤ}
    (h : bv.addVerifiedVote vote power = .ok bv') {v : Vote} (hv : some v ∈ bv'.votes) :
    v = vote ∨ some v ∈ bv.votes := by
  unfold BlockVotes.addVerifiedVote at h
  split at h
  · simp at h
  · cases h
    exact Or.inr hv
  · cases h
    exact mem_set_some hv

/-- **What `placeVote` does**: a first vote is written; another vote of a validator conflicts, and
takes the place of the first only if it has the key of `maj23`. -/
theorem placeVote_cases {key : Bytes} {power : ℤ} {placed : VoteSet} {conflicting : Option Vote}
    (h : voteSet.placeVote vote key power = .ok (placed, conflicting)) :
    (voteSet.votes[vote.validatorIndex]? = some none ∧ conflicting = none ∧
      placed = { voteSet with
        votes := voteSet.votes.set vote.validatorIndex (some vote)
        votesBitArray := voteSet.votesBitArray.set vote.validatorIndex true
        sum := voteSet.sum + power }) ∨
    ∃ existing, voteSet.votes[vote.validatorIndex]? = some (some existing) ∧
      existing.blockID ≠ vote.blockID ∧ conflicting = some existing ∧
      (placed = voteSet ∨ voteSet.maj23.map BlockID.key = some key ∧
        placed = { voteSet with
          votes := voteSet.votes.set vote.validatorIndex (some vote)
          votesBitArray := voteSet.votesBitArray.set vote.validatorIndex true }) := by
  unfold placeVote at h
  split at h
  · cases h
  next existing hexisting =>
    split_ifs at h with hsame hkey
    · cases h
      exact .inr ⟨existing, hexisting, hsame, rfl, .inr ⟨hkey, rfl⟩⟩
    · cases h
      exact .inr ⟨existing, hexisting, hsame, rfl, .inl rfl⟩
  next hnone =>
    cases h
    exact .inl ⟨hnone, rfl, rfl⟩

/-- **What `countVote` does**: the entry is written, with the vote unless there is no tally; the
vote that brings the first majority also sets `maj23` and copies the votes of the entry. -/
theorem countVote_cases {key : Bytes} {power : ℤ} {bv : BlockVotes} {added : Bool}
    (h : voteSet.countVote vote key power bv = .ok (voteSet', added)) :
    voteSet' = { voteSet with votesByBlock := voteSet.votesByBlock.insert key bv } ∨
    ∃ bv' maj23 votes, bv.addVerifiedVote vote power = .ok bv' ∧
      voteSet' = { voteSet with
        votesByBlock := voteSet.votesByBlock.insert key bv', maj23 := maj23, votes := votes } ∧
      (maj23 = voteSet.maj23 ∧ votes = voteSet.votes ∨
        maj23.isSome = true ∧ votes = copyVotes voteSet.votes bv'.votes) := by
  unfold countVote at h
  split at h
  · cases h
    exact .inl rfl
  · obtain ⟨bv', hbv', h⟩ := Steps.bind_eq_ok.1 h
    simp only at h
    split_ifs at h
    · cases h
      exact .inr ⟨bv', _, _, hbv', rfl, .inr ⟨rfl, rfl⟩⟩
    · cases h
      exact .inr ⟨bv', _, _, hbv', rfl, .inl ⟨rfl, rfl⟩⟩

/-- **What `addVerifiedVote` does**: a vote that conflicts with another one is dropped, unless a
peer claims its block; every other vote goes to the entry of its key, which a first vote may open. -/
theorem addVerifiedVote_cases {key : Bytes} {power : ℤ} {added : Bool} {conflicting : Option Vote}
    (h : voteSet.addVerifiedVote vote key power = .ok (voteSet', added, conflicting)) :
    ∃ placed, voteSet.placeVote vote key power = .ok (placed, conflicting) ∧
      ((voteSet' = placed ∧ conflicting.isSome = true ∧
          ∀ bv, placed.votesByBlock.lookup key = some bv → bv.peerMaj23 = false) ∨
        ∃ bv, placed.countVote vote key power bv = .ok (voteSet', added) ∧
          (placed.votesByBlock.lookup key = some bv ∨
            placed.votesByBlock.lookup key = none ∧ conflicting = none ∧
              bv = newBlockVotes false voteSet.valSet.size)) := by
  unfold addVerifiedVote at h
  obtain ⟨⟨placed, conf⟩, hplace, h⟩ := Steps.bind_eq_ok.1 h
  simp only at h
  split at h
  next bv hbv =>
    split at h
    next hdrop =>
      cases h
      obtain ⟨hconf, hpeer⟩ := Bool.and_eq_true_iff.1 hdrop
      refine ⟨_, hplace, .inl ⟨rfl, hconf, fun bv' hbv' => ?_⟩⟩
      obtain rfl := Option.some.inj (hbv.symm.trans hbv')
      simpa using hpeer
    next =>
      obtain ⟨⟨counted, added'⟩, hcount, h⟩ := Steps.bind_eq_ok.1 h
      cases h
      exact ⟨placed, hplace, .inr ⟨bv, hcount, .inl hbv⟩⟩
  next hnone =>
    split at h
    next hconf =>
      cases h
      refine ⟨_, hplace, .inl ⟨rfl, hconf, fun bv hbv => ?_⟩⟩
      cases hnone.symm.trans hbv
    next hconf =>
      obtain ⟨⟨counted, added'⟩, hcount, h⟩ := Steps.bind_eq_ok.1 h
      cases h
      exact ⟨placed, hplace, .inr ⟨_, hcount, .inr ⟨hnone, by simpa using hconf, rfl⟩⟩⟩

theorem placeVote_spec {key : Bytes} {power : ℤ} {conflicting : Option Vote}
    (h : voteSet.placeVote vote key power = .ok (voteSet', conflicting))
    (hall : voteSet.AllVotes P) (hvote : P vote) :
    voteSet'.AllVotes P ∧ SameHeader voteSet voteSet' := by
  have hset : ∀ v, some v ∈ voteSet.votes.set vote.validatorIndex (some vote) → P v := by
    intro v hv
    rcases mem_set_some hv with rfl | hv
    · exact hvote
    · exact hall.votes v hv
  rcases placeVote_cases h with ⟨-, -, rfl⟩ | ⟨existing, -, -, -, rfl | ⟨-, rfl⟩⟩
  · exact ⟨⟨hset, hall.byBlock⟩, ⟨rfl, rfl, rfl, rfl, rfl⟩⟩
  · exact ⟨hall, SameHeader.refl _⟩
  · exact ⟨⟨hset, hall.byBlock⟩, ⟨rfl, rfl, rfl, rfl, rfl⟩⟩

/-- Writing an entry of `votesByBlock` keeps the property when the entry has it. -/
theorem AllVotes.insert {key : Bytes} {bv : BlockVotes} (hall : voteSet.AllVotes P)
    (hbv : ∀ v, some v ∈ bv.votes → P v) :
    ({ voteSet with votesByBlock := voteSet.votesByBlock.insert key bv } : VoteSet).AllVotes P := by
  refine ⟨hall.votes, fun k bv' hk => ?_⟩
  rw [GoMap.lookup_insert_ite] at hk
  split_ifs at hk
  · cases hk
    exact hbv
  · exact hall.byBlock k bv' hk

theorem countVote_spec {key : Bytes} {power : ℤ} {bv : BlockVotes} {added : Bool}
    (h : voteSet.countVote vote key power bv = .ok (voteSet', added))
    (hall : voteSet.AllVotes P) (hvote : P vote) (hbv : ∀ v, some v ∈ bv.votes → P v) :
    voteSet'.AllVotes P ∧ SameHeader voteSet voteSet' := by
  rcases countVote_cases h with rfl | ⟨bv', maj23, votes, hbv', rfl, hvotes⟩
  · exact ⟨hall.insert hbv, ⟨rfl, rfl, rfl, rfl, rfl⟩⟩
  · have hbv'' : ∀ v, some v ∈ bv'.votes → P v := by
      intro v hv
      rcases blockVotes_addVerifiedVote hbv' hv with rfl | hv
      · exact hvote
      · exact hbv v hv
    have hins := @AllVotes.insert _ _ key _ hall hbv''
    refine ⟨⟨fun v hv => ?_, hins.byBlock⟩, ⟨rfl, rfl, rfl, rfl, rfl⟩⟩
    rcases hvotes with ⟨-, rfl⟩ | ⟨-, rfl⟩
    · exact hall.votes v hv
    · exact (mem_copyVotes hv).elim (hall.votes v) (hbv'' v)

theorem addVerifiedVote_spec {key : Bytes} {power : ℤ} {added : Bool} {conflicting : Option Vote}
    (h : voteSet.addVerifiedVote vote key power = .ok (voteSet', added, conflicting))
    (hall : voteSet.AllVotes P) (hvote : P vote) :
    voteSet'.AllVotes P ∧ SameHeader voteSet voteSet' := by
  obtain ⟨placed, hplace, hcases⟩ := addVerifiedVote_cases h
  obtain ⟨hplaced, hsame⟩ := placeVote_spec hplace hall hvote
  rcases hcases with ⟨rfl, -⟩ | ⟨bv, hcount, hbv⟩
  · exact ⟨hplaced, hsame⟩
  have hold : ∀ v, some v ∈ bv.votes → P v := by
    rcases hbv with hbv | ⟨-, -, rfl⟩
    · exact hplaced.byBlock _ _ hbv
    · simp [newBlockVotes, List.mem_replicate]
  obtain ⟨hcounted, hsame'⟩ := countVote_spec hcount hplaced hvote hold
  exact ⟨hcounted, hsame.trans hsame'⟩

/-- **What `AddVote` does**: it leaves the set alone, or adds a vote of the set's height, round and
type that is not known and that the validator of its index has signed. -/
theorem addVote_eq_ok {L : Libs} {added : Bool} {err : Option VoteError}
    (h : voteSet.addVote L vote = .ok (voteSet', added, err)) :
    voteSet' = voteSet ∧ added = false ∨ ∃ addr val conflicting,
      (vote.height = voteSet.height ∧ ofUint64 vote.round = voteSet.round ∧
        vote.type_ = voteSet.type_) ∧
      voteSet.valSet.getByIndex (ofUint64 vote.validatorIndex) = .ok (addr, val) ∧
      voteSet.getVote (ofUint64 vote.validatorIndex) vote.blockID.key = .ok none ∧
      L.verifyBytes val.pubKey (L.signBytes voteSet.chainID (canonicalVote vote))
        vote.signature = true ∧
      voteSet.addVerifiedVote vote vote.blockID.key val.votingPower =
        .ok (voteSet', added, conflicting) := by
  have hsame : ∀ {e : Option VoteError},
      (.ok (voteSet, false, e) : Go (VoteSet × Bool × Option VoteError)) =
        .ok (voteSet', added, err) → voteSet' = voteSet ∧ added = false := by
    intro e he
    cases he
    exact ⟨rfl, rfl⟩
  unfold addVote at h
  split at h
  · cases h
  split at h
  · exact .inl (hsame h)
  next hstep =>
  push Not at hstep
  obtain ⟨⟨addr, val⟩, hget, h⟩ := Steps.bind_eq_ok.1 h
  simp only at h
  split at h
  · exact .inl (hsame h)
  obtain ⟨existing, hexisting, h⟩ := Steps.bind_eq_ok.1 h
  split at h
  · split at h <;> exact .inl (hsame h)
  split at h
  · exact .inl (hsame h)
  next hverify =>
  obtain ⟨⟨vs, added', conflicting⟩, hadd, h⟩ := Steps.bind_eq_ok.1 h
  refine .inr ⟨addr, val, conflicting, hstep, hget, hexisting, by simpa using hverify, ?_⟩
  simp only at h
  split at h
  · cases h
    exact hadd
  · split at h
    · cases h
    · cases h
      exact hadd

/-- **`AddVote` puts nothing into the set but the vote it was given**, and that only when
its height, round and type are those of the set. -/
theorem addVote_spec {L : Libs} {added : Bool} {err : Option VoteError}
    (h : voteSet.addVote L vote = .ok (voteSet', added, err)) (hall : voteSet.AllVotes P)
    (hvote : vote.height = voteSet.height → ofUint64 vote.round = voteSet.round →
      vote.type_ = voteSet.type_ → P vote) :
    voteSet'.AllVotes P ∧ SameHeader voteSet voteSet' := by
  rcases addVote_eq_ok h with ⟨rfl, -⟩ | ⟨addr, val, conflicting, hstep, -, -, -, hadd⟩
  · exact ⟨hall, SameHeader.refl _⟩
  · exact addVerifiedVote_spec hadd hall (hvote hstep.1 hstep.2.1 hstep.2.2)

end VoteSet

/-- `HasTwoThirdsMajority`, which a `nil` vote set answers too. -/
def hasTwoThirdsMajority (voteSet : Option VoteSet) : Bool :=
  (voteSet.bind VoteSet.maj23).isSome

end LigoChain
