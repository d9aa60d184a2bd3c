/-
# Keys of block identifiers

`BlockID.Key` (`types/block.go`) is the hash of the block followed by what `wire` writes for the
header of its parts: eight bytes of total, then the length of the parts hash, then the parts hash.
`VoteSet` (`types/vote_set.go`) groups votes and looks for duplicates by this key, and takes a vote
with a hash of any length.

What `wire` writes can be read back (`binaryBytes_injective`), but the key does not say where the
hash ends.  Two identifiers have one key exactly if they are equal, or the hash of one goes on where
the other has its header already (`key_eq_iff`).  **`blockKeys_iff`**: on a set of identifiers the key
is injective, and no sequence of calls on a vote set mixes their votes, exactly if no identifier of
the set runs into another one.  Hashes of one length do not, nor do parts hashes of one length.
-/

import LigoChain.Types.VoteGathering

namespace LigoChain

open GoInt

/-! ## What `wire` writes -/

@[simp] theorem length_bigEndian (width n : ℕ) : (bigEndian width n).length = width := by
  induction width generalizing n with
  | zero => rfl
  | succ width ih => simp [bigEndian, ih]

theorem bigEndian_injective {width m n : ℕ} (hm : m < 256 ^ width) (hn : n < 256 ^ width)
    (h : bigEndian width m = bigEndian width n) : m = n := by
  induction width generalizing m n with
  | zero => omega
  | succ width ih =>
    obtain ⟨hfront, hlast⟩ := List.append_inj' h rfl
    have hdiv := ih (by rw [pow_succ] at hm; omega) (by rw [pow_succ] at hn; omega) hfront
    have hmod := congrArg UInt8.toNat (List.cons.inj hlast).1
    rw [UInt8.toNat_ofNat', UInt8.toNat_ofNat'] at hmod
    omega

theorem lt_pow_byteSize {n : ℕ} (h : n < 2 ^ 64) : n < 256 ^ byteSize n := by
  unfold byteSize
  cases hfind : (List.range 9).find? fun k => decide (n < 256 ^ k) with
  | none =>
    have hlast := List.find?_eq_none.1 hfind 8 (by decide)
    exact absurd (decide_eq_true (show n < 256 ^ 8 from h)) hlast
  | some k => simpa using List.find?_some hfind

theorem byteSize_le (n : ℕ) : byteSize n ≤ 8 := by
  unfold byteSize
  cases hfind : (List.range 9).find? fun k => decide (n < 256 ^ k) with
  | none => exact le_rfl
  | some k => exact Nat.lt_succ_iff.1 (List.mem_range.1 (List.mem_of_find?_eq_some hfind))

/-- A header that Go's types allow: the total and the length of the hash are `uint64`. -/
structure PartSetHeader.Typed (psh : PartSetHeader) : Prop where
  total : psh.total < 2 ^ 64
  hash : psh.hash.length < 2 ^ 64

/-- **The header can be read back from its encoding.** -/
theorem PartSetHeader.binaryBytes_injective {x y : PartSetHeader} (hx : x.Typed) (hy : y.Typed)
    (h : x.binaryBytes = y.binaryBytes) : x = y := by
  unfold PartSetHeader.binaryBytes at h
  rw [List.append_assoc, List.append_assoc] at h
  obtain ⟨htotal, h⟩ := List.append_inj h (by simp)
  obtain ⟨hsize, h⟩ := List.cons.inj h
  have hsize' : byteSize x.hash.length = byteSize y.hash.length := by
    have hmod := congrArg UInt8.toNat hsize
    rw [UInt8.toNat_ofNat', UInt8.toNat_ofNat'] at hmod
    have hle := byteSize_le x.hash.length
    have hle' := byteSize_le y.hash.length
    omega
  obtain ⟨hlength, hhash⟩ := List.append_inj h (by simpa using hsize')
  rw [hsize'] at hlength
  have hlength' : x.hash.length = y.hash.length :=
    bigEndian_injective (hsize' ▸ lt_pow_byteSize hx.hash) (lt_pow_byteSize hy.hash) hlength
  have htotal' : x.total = y.total := bigEndian_injective hx.total hy.total htotal
  cases x
  cases y
  simp_all

/-! ## Keys -/

namespace BlockID

variable {x y : BlockID}

/-- The hash of `y` is that of `x` with the first bytes of the encoded header of `x`, whose other
bytes are the encoded header of `y`. -/
def RunsInto (x y : BlockID) : Prop :=
  ∃ bytes, bytes ≠ [] ∧ y.hash = x.hash ++ bytes ∧
    x.partsHeader.binaryBytes = bytes ++ y.partsHeader.binaryBytes

theorem RunsInto.key (h : x.RunsInto y) : x.key = y.key := by
  obtain ⟨bytes, -, hhash, hheader⟩ := h
  rw [BlockID.key, BlockID.key, hhash, hheader, List.append_assoc]

theorem RunsInto.length_lt (h : x.RunsInto y) : x.hash.length < y.hash.length := by
  obtain ⟨bytes, hne, hhash, -⟩ := h
  rw [hhash, List.length_append]
  exact Nat.lt_add_of_pos_right (List.length_pos_iff.2 hne)

/-- The hash of `y` starts with that of `x`, and the keys are the same. -/
theorem eq_or_runsInto (hx : x.partsHeader.Typed) (hy : y.partsHeader.Typed) {bytes : Bytes}
    (hhash : y.hash = x.hash ++ bytes)
    (hheader : x.partsHeader.binaryBytes = bytes ++ y.partsHeader.binaryBytes) :
    x = y ∨ x.RunsInto y := by
  cases bytes with
  | nil =>
    have hparts := PartSetHeader.binaryBytes_injective hx hy hheader
    cases x
    cases y
    simp_all
  | cons b bytes => exact .inr ⟨_, List.cons_ne_nil b bytes, hhash, hheader⟩

/-- **Which identifiers have one key.** -/
theorem key_eq_iff (hx : x.partsHeader.Typed) (hy : y.partsHeader.Typed) :
    x.key = y.key ↔ x = y ∨ x.RunsInto y ∨ y.RunsInto x := by
  constructor
  · intro h
    rcases List.append_eq_append_iff.1 h with ⟨bytes, hhash, hheader⟩ | ⟨bytes, hhash, hheader⟩
    · exact (eq_or_runsInto hx hy hhash hheader).imp_right .inl
    · exact (eq_or_runsInto hy hx hhash hheader).imp Eq.symm .inr
  · rintro (rfl | h | h)
    · rfl
    · exact h.key
    · exact h.key.symm

/-- Identifiers with hashes of one length, or with parts hashes of one length, have different
keys. -/
theorem not_runsInto (h : x.hash.length = y.hash.length ∨
    x.partsHeader.hash.length = y.partsHeader.hash.length) : ¬ x.RunsInto y := fun hruns => by
  rcases h with h | h
  · exact hruns.length_lt.ne h
  · obtain ⟨bytes, hne, -, hheader⟩ := hruns
    have hlength := congrArg List.length hheader
    simp only [PartSetHeader.binaryBytes, List.length_append, List.length_cons, length_bigEndian,
      h] at hlength
    exact hne (List.length_eq_zero_iff.1 (by omega))

end BlockID

/-! ## Vote sets -/

namespace VoteSet

variable {L : Libs} {voteSet voteSet' : VoteSet} {vote : Vote}

/-- The votes of an entry have its key. -/
def Keyed (voteSet : VoteSet) : Prop :=
  ∀ key bv, voteSet.votesByBlock.lookup key = some bv → ∀ v, some v ∈ bv.votes → v.blockID.key = key

theorem Keyed.insert (h : voteSet.Keyed) {key : Bytes} {bv : BlockVotes}
    (hbv : ∀ v, some v ∈ bv.votes → v.blockID.key = key) (maj23 : Option BlockID)
    (votes : List (Option Vote)) (peerMaj23s : GoMap String BlockID) :
    Keyed { voteSet with
      votesByBlock := voteSet.votesByBlock.insert key bv
      maj23 := maj23
      votes := votes
      peerMaj23s := peerMaj23s } := by
  intro k bv' hk
  simp only [GoMap.lookup_insert_ite] at hk
  split_ifs at hk with hkey
  · cases hk
    exact hkey ▸ hbv
  · exact h k bv' hk

theorem not_mem_newBlockVotes {peerMaj23 : Bool} {n : ℕ} {v : Vote} :
    some v ∉ (newBlockVotes peerMaj23 n).votes := by
  simp [newBlockVotes, List.mem_replicate]

theorem Keyed.addVerifiedVote (h : voteSet.Keyed) {power : ℤ} {added : Bool}
    {conflicting : Option Vote}
    (hadd : voteSet.addVerifiedVote vote vote.blockID.key power =
      .ok (voteSet', added, conflicting)) : voteSet'.Keyed := by
  obtain ⟨placed, hplace, hcases⟩ := addVerifiedVote_cases hadd
  have hplaced : placed.Keyed := by
    rcases placeVote_cases hplace with ⟨-, -, rfl⟩ | ⟨existing, -, -, -, rfl | ⟨-, rfl⟩⟩ <;> exact h
  rcases hcases with ⟨rfl, -⟩ | ⟨bv, hcount, hbv⟩
  · exact hplaced
  have hkeys : ∀ v, some v ∈ bv.votes → v.blockID.key = vote.blockID.key := by
    rcases hbv with hbv | ⟨-, -, rfl⟩
    · exact hplaced _ bv hbv
    · exact fun v hv => absurd hv not_mem_newBlockVotes
  rcases countVote_cases hcount with rfl | ⟨bv', maj23, votes, hbv', rfl, -⟩
  · exact hplaced.insert hkeys _ _ _
  · refine hplaced.insert (fun v hv => ?_) _ _ _
    rcases blockVotes_addVerifiedVote hbv' hv with rfl | hv
    · rfl
    · exact hkeys v hv

theorem Keyed.setPeerMaj23 (h : voteSet.Keyed) (peerID : String) (blockID : BlockID) :
    (voteSet.setPeerMaj23 peerID blockID).Keyed := by
  unfold VoteSet.setPeerMaj23
  split
  · exact h
  · refine h.insert (fun v hv => ?_) _ _ _
    split at hv
    next bv hbv => exact h _ bv hbv v hv
    next => exact absurd hv not_mem_newBlockVotes

theorem Keyed.call (h : voteSet.Keyed) {c : Call} (hcall : voteSet.call L c = .ok voteSet') :
    voteSet'.Keyed := by
  cases c with
  | addVote vote =>
    obtain ⟨⟨vs, added, err⟩, hadd, rfl⟩ := Steps.map_eq_ok.1 hcall
    rcases addVote_eq_ok hadd with ⟨rfl, -⟩ | ⟨addr, val, conflicting, -, -, -, -, hverified⟩
    · exact h
    · exact h.addVerifiedVote hverified
  | setPeerMaj23 peerID blockID =>
    cases hcall
    exact h.setPeerMaj23 peerID blockID

/-- The identifiers that a call names in votes are in the set. -/
def Call.VotesIn (S : Set BlockID) : Call → Prop
  | .addVote vote => vote.blockID ∈ S
  | .setPeerMaj23 _ _ => True

theorem AllVotes.call {S : Set BlockID} (h : voteSet.AllVotes fun v => v.blockID ∈ S) {c : Call}
    (hc : c.VotesIn S) (hcall : voteSet.call L c = .ok voteSet') :
    voteSet'.AllVotes fun v => v.blockID ∈ S := by
  cases c with
  | addVote vote =>
    obtain ⟨⟨vs, added, err⟩, hadd, rfl⟩ := Steps.map_eq_ok.1 hcall
    exact (addVote_spec hadd h fun _ _ _ => hc).1
  | setPeerMaj23 peerID blockID =>
    cases hcall
    unfold VoteSet.setPeerMaj23
    split
    · exact h
    · refine ⟨h.votes, fun key bv' hkey v hv => ?_⟩
      simp only [GoMap.lookup_insert_ite] at hkey
      split_ifs at hkey
      · cases hkey
        split at hv
        next bv hbv => exact h.byBlock _ bv hbv v hv
        next => exact absurd hv not_mem_newBlockVotes
      · exact h.byBlock key bv' hkey v hv

/-- Votes for different blocks are not counted together, and a vote that is taken as known is for
the block of the vote it is found for. -/
structure Apart (S : Set BlockID) (voteSet : VoteSet) : Prop where
  tally : ∀ key bv v w, voteSet.votesByBlock.lookup key = some bv → some v ∈ bv.votes →
    some w ∈ bv.votes → v.blockID = w.blockID
  known : ∀ (vote existing : Vote), vote.blockID ∈ S →
    voteSet.getVote (ofUint64 vote.validatorIndex) vote.blockID.key = .ok (some existing) →
    existing.blockID = vote.blockID

/-- A vote that `getVote` returns is in the set, and has the key. -/
theorem Keyed.getVote (h : voteSet.Keyed) {P : Vote → Prop} (hall : voteSet.AllVotes P) {i : ℤ}
    {key : Bytes} {existing : Vote} (hget : voteSet.getVote i key = .ok (some existing)) :
    P existing ∧ existing.blockID.key = key := by
  unfold VoteSet.getVote at hget
  split at hget
  · cases hget
  next known hknown =>
  split at hget
  next v hv =>
    cases hget
    obtain ⟨rfl, hkey⟩ := Option.filter_eq_some_iff.1 hv
    refine ⟨hall.votes _ ?_, by simpa using hkey⟩
    split_ifs at hknown
    exact List.mem_of_getElem? hknown
  next =>
    split at hget
    · cases hget
    next bv hbv =>
      split at hget
      · cases hget
      next v hv =>
        obtain rfl := Except.ok.inj hget
        have hmem := List.mem_of_getElem? hv
        exact ⟨hall.byBlock _ bv hbv _ hmem, h _ bv hbv _ hmem⟩

/-- After every sequence of calls the votes of a set have the keys of their entries, and are for
identifiers that the calls named. -/
theorem keyed_of_run {S : Set BlockID} {start : VoteSet} {calls : List Call}
    (hvotes : ∀ c ∈ calls, c.VotesIn S) (hrun : calls.foldlM (call L) start = .ok voteSet)
    (hstart : start.Keyed ∧ start.AllVotes fun v => v.blockID ∈ S) :
    voteSet.Keyed ∧ voteSet.AllVotes fun v => v.blockID ∈ S := by
  induction calls generalizing start with
  | nil =>
    cases hrun
    exact hstart
  | cons c calls ih =>
    obtain ⟨next, hcall, hrest⟩ := Steps.foldlM_cons_eq_ok.1 hrun
    obtain ⟨hc, hcalls⟩ := List.forall_mem_cons.1 hvotes
    exact ih hcalls hrest ⟨hstart.1.call hcall, hstart.2.call hc hcall⟩

/-- No sequence of calls with votes for the identifiers mixes their votes. -/
def KeptApart (S : Set BlockID) : Prop :=
  ∀ (L : Libs) (chainID : String) (height : ℕ) (round : ℤ) (type_ : ℕ) (valSet : ValidatorSet)
    (start voteSet : VoteSet) (calls : List Call),
    newVoteSet chainID height round type_ valSet = .ok start → (∀ c ∈ calls, c.VotesIn S) →
    calls.foldlM (call L) start = .ok voteSet → voteSet.Apart S

theorem keptApart {S : Set BlockID} (hS : ∀ x ∈ S, ∀ y ∈ S, x.key = y.key → x = y) :
    KeptApart S := by
  intro L chainID height round type_ valSet start voteSet calls hnew hvotes hrun
  have hstart : start.Keyed ∧ start.AllVotes fun v => v.blockID ∈ S := by
    unfold newVoteSet at hnew
    split_ifs at hnew
    cases hnew
    exact ⟨fun _ _ h => by simp at h, by simp [List.mem_replicate], by simp⟩
  obtain ⟨hkeyed, hall⟩ := keyed_of_run hvotes hrun hstart
  constructor
  · intro key bv v w hbv hv hw
    exact hS _ (hall.byBlock key bv hbv v hv) _ (hall.byBlock key bv hbv w hw)
      ((hkeyed key bv hbv v hv).trans (hkeyed key bv hbv w hw).symm)
  · intro vote existing hvote hget
    obtain ⟨hexisting, hkey⟩ := hkeyed.getVote hall hget
    exact hS _ hexisting _ hvote hkey

end VoteSet

/-- **Keys tell the identifiers of a set apart, and vote sets keep their votes apart, exactly if no
identifier of the set runs into another one.** -/
theorem blockKeys_iff (S : Set BlockID) (hS : ∀ x ∈ S, x.partsHeader.Typed) :
    ((∀ x ∈ S, ∀ y ∈ S, x.key = y.key ↔ x = y) ∧ VoteSet.KeptApart S) ↔
      ∀ x ∈ S, ∀ y ∈ S, ¬ x.RunsInto y := by
  constructor
  · rintro ⟨hkeys, -⟩ x hx y hy hruns
    have hlt := hruns.length_lt
    rw [(hkeys x hx y hy).1 hruns.key] at hlt
    exact lt_irrefl _ hlt
  · intro h
    have hkeys : ∀ x ∈ S, ∀ y ∈ S, x.key = y.key → x = y := fun x hx y hy hkey => by
      rcases (BlockID.key_eq_iff (hS x hx) (hS y hy)).1 hkey with heq | hruns | hruns
      · exact heq
      · exact absurd hruns (h x hx y hy)
      · exact absurd hruns (h y hy x hx)
    exact ⟨fun x hx y hy => ⟨hkeys x hx y hy, congrArg BlockID.key⟩, VoteSet.keptApart hkeys⟩

/-- Identifiers whose hashes have 32 bytes, as block hashes do. -/
theorem blockKeys_iff_hashes :
    (∀ x : BlockID, x.partsHeader.Typed ∧ x.hash.length = 32 →
      ∀ y : BlockID, y.partsHeader.Typed ∧ y.hash.length = 32 → (x.key = y.key ↔ x = y)) ∧
    VoteSet.KeptApart { x | x.partsHeader.Typed ∧ x.hash.length = 32 } :=
  (blockKeys_iff { x | x.partsHeader.Typed ∧ x.hash.length = 32 } fun _ hx => hx.1).2
    fun _ hx _ hy => BlockID.not_runsInto (.inl (hx.2.trans hy.2.symm))

/-! ## Two identifiers with one key -/

namespace VoteSet

/-- A prevote of one of the four validators in round `0`. -/
def prevoteFor (index : ℕ) (blockID : BlockID) : Vote :=
  let key : Bytes := [UInt8.ofNat (index + 1)]
  let vote : Vote := ⟨key, index, 1, 0, voteTypePrevote, blockID, [], []⟩
  { vote with signature := PlainLibs.sign key (plainLibs.signBytes "" (canonicalVote vote)) }

/-- A block hash of one byte, and a parts hash that starts like a header. -/
def shortHash : BlockID := ⟨[7], ⟨1, [0, 0, 0, 0, 0, 0, 0, 1, 0]⟩⟩

/-- The hash goes on with the total and the length of the other's parts hash. -/
def longHash : BlockID := ⟨[7, 0, 0, 0, 0, 0, 0, 0, 1, 1, 9], ⟨1, []⟩⟩

/-- The entry has votes for both. -/
def mixes (bv : BlockVotes) : Bool :=
  bv.votes[0]? == some (some (prevoteFor 0 shortHash)) &&
    bv.votes[1]? == some (some (prevoteFor 1 longHash))

/-- A vote for `longHash` that carries the signature of the vote for `shortHash`. -/
def copied : Vote := { prevoteFor 0 longHash with signature := (prevoteFor 0 shortHash).signature }

/-- **Two identifiers share a key**: their votes are counted together, and a vote for one is taken
as a duplicate of a vote for the other. -/
theorem blockKeys_collide : shortHash ≠ longHash ∧ shortHash.key = longHash.key ∧
    ∃ start voteSet bv r, newVoteSet "" 1 0 voteTypePrevote fourValidators = .ok start ∧
      [Call.addVote (prevoteFor 0 shortHash), .addVote (prevoteFor 1 longHash)].foldlM
        (call plainLibs) start = .ok voteSet ∧
      voteSet.votesByBlock.lookup shortHash.key = some bv ∧
      bv.votes[0]? = some (some (prevoteFor 0 shortHash)) ∧
      bv.votes[1]? = some (some (prevoteFor 1 longHash)) ∧
      voteSet.addVote plainLibs copied = .ok r ∧ r.2 = (false, none) := by
  refine ⟨by decide, by decide, ?_⟩
  obtain ⟨start, hnew, hholds⟩ := Steps.holds_eq_true.1
    (by decide +kernel : Steps.holds (newVoteSet "" 1 0 voteTypePrevote fourValidators) (fun start =>
      Steps.holds ([Call.addVote (prevoteFor 0 shortHash), .addVote (prevoteFor 1 longHash)].foldlM
        (call plainLibs) start) fun voteSet =>
          (voteSet.votesByBlock.lookup shortHash.key).any mixes &&
            Steps.holds (voteSet.addVote plainLibs copied) fun r => r.2 == (false, none)) = true)
  obtain ⟨voteSet, hrun, hmixed⟩ := Steps.holds_eq_true.1 hholds
  obtain ⟨hentry, hduplicate⟩ := Bool.and_eq_true_iff.1 hmixed
  obtain ⟨bv, hbv, hmixes⟩ := (Option.any_eq_true _ _).1 hentry
  obtain ⟨h0, h1⟩ := Bool.and_eq_true_iff.1 hmixes
  obtain ⟨r, hr, hnone⟩ := Steps.holds_eq_true.1 hduplicate
  exact ⟨start, voteSet, bv, r, hnew, hrun, hbv, by simpa using h0, by simpa using h1, hr,
    by simpa using hnone⟩

end VoteSet

end LigoChain
